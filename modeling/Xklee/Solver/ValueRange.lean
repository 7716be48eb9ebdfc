/-
Ranges of values: `ValueRange` of `lib/Solver/FastCexSolver.cpp`, and the bounds of bitwise
operations that it takes from "Hacker's Delight".

A range is a pair of 64-bit words. `none` stands for a failing assertion, for a shift by the
word width or more, and for a loop that does not end. The bounds go through the bits from
the highest one; each loop takes the number of bits that are left.

`Contains` relates a range to a number. Each operation that has a result keeps it, and has
a result whenever its operands contain a number.
-/
import Xklee.Data.BitOrder
import Xklee.Data.Partial
import Xklee.Expr.Semantics
import Xklee.Util.Bits

set_option autoImplicit false

namespace Xklee

/-! ## Bounds of bitwise operations -/

def minORLoop (a b c d : BitVec 64) : ℕ → BitVec 64
  | 0 => a ||| c
  | k + 1 =>
      let m := BitVec.twoPow 64 k
      if ~~~a &&& c &&& m ≠ 0 then
        let temp := (a ||| m) &&& -m
        if temp ≤ b then temp ||| c else minORLoop a b c d k
      else if a &&& ~~~c &&& m ≠ 0 then
        let temp := (c ||| m) &&& -m
        if temp ≤ d then a ||| temp else minORLoop a b c d k
      else minORLoop a b c d k

/-- `minOR`. -/
def minOR (a b c d : BitVec 64) : BitVec 64 := minORLoop a b c d 64

def maxORLoop (a b c d : BitVec 64) : ℕ → BitVec 64
  | 0 => b ||| d
  | k + 1 =>
      let m := BitVec.twoPow 64 k
      if b &&& d &&& m ≠ 0 then
        let temp := b - m ||| (m - 1)
        if a ≤ temp then temp ||| d
        else
          let temp := d - m ||| (m - 1)
          if c ≤ temp then b ||| temp else maxORLoop a b c d k
      else maxORLoop a b c d k

/-- `maxOR`. -/
def maxOR (a b c d : BitVec 64) : BitVec 64 := maxORLoop a b c d 64

def minANDLoop (a b c d : BitVec 64) : ℕ → BitVec 64
  | 0 => a &&& c
  | k + 1 =>
      let m := BitVec.twoPow 64 k
      if ~~~a &&& ~~~c &&& m ≠ 0 then
        let temp := (a ||| m) &&& -m
        if temp ≤ b then temp &&& c
        else
          let temp := (c ||| m) &&& -m
          if temp ≤ d then a &&& temp else minANDLoop a b c d k
      else minANDLoop a b c d k

/-- `minAND`. -/
def minAND (a b c d : BitVec 64) : BitVec 64 := minANDLoop a b c d 64

def maxANDLoop (a b c d : BitVec 64) : ℕ → BitVec 64
  | 0 => b &&& d
  | k + 1 =>
      let m := BitVec.twoPow 64 k
      if b &&& ~~~d &&& m ≠ 0 then
        let temp := b &&& ~~~m ||| (m - 1)
        if a ≤ temp then temp &&& d else maxANDLoop a b c d k
      else if ~~~b &&& d &&& m ≠ 0 then
        let temp := d &&& ~~~m ||| (m - 1)
        if c ≤ temp then b &&& temp else maxANDLoop a b c d k
      else maxANDLoop a b c d k

/-- `maxAND`. -/
def maxAND (a b c d : BitVec 64) : BitVec 64 := maxANDLoop a b c d 64

section Bounds

open BitOrder

variable {x y a b c d : BitVec 64} {k : ℕ}

/-- The bit that a mask of one bit asks for. -/
theorem and_twoPow_ne_zero {x : BitVec 64} (hk : k < 64) :
    x &&& BitVec.twoPow 64 k ≠ 0 ↔ x.getLsbD k = true := by
  cases hx : x.getLsbD k with
  | false => simp [and_twoPow_eq_zero hx]
  | true =>
    refine iff_of_true (fun hzero => ?_) rfl
    have hbit := congrArg (fun z : BitVec 64 => z.getLsbD k) hzero
    simp [hx, hk, -BitVec.getLsbD_eq_getElem] at hbit

theorem sub_twoPow_or {b : BitVec 64} (hb : b.getLsbD k = true) :
    b - BitVec.twoPow 64 k ||| (BitVec.twoPow 64 k - 1) = roundDown b k := by
  have hclear : b ^^^ BitVec.twoPow 64 k = b &&& ~~~BitVec.twoPow 64 k := by
    apply BitVec.eq_of_getLsbD_eq
    intro i hi
    rw [BitVec.getLsbD_xor, BitVec.getLsbD_and, BitVec.getLsbD_not, BitVec.getLsbD_twoPow]
    by_cases hki : k = i
    · subst hki
      simp [hb, hi, -BitVec.getLsbD_eq_getElem]
    · simp [hki, hi]
  rw [← xor_twoPow_eq_sub hb, hclear, roundDown]

theorem minORLoop_le (hax : a ≤ x) (hxb : x ≤ b) (hcy : c ≤ y) (hyd : y ≤ d) (hk : k ≤ 64)
    (h : LowEnds x y a c k) : minORLoop a b c d k ≤ x ||| y := by
  induction k with
  | zero => exact h.or_le hax hcy
  | succ k ih =>
    have hk' : k < 64 := by omega
    simp only [minORLoop, and_twoPow_ne_zero hk', BitVec.getLsbD_and, BitVec.getLsbD_not, hk',
      decide_true, Bool.true_and, Bool.and_eq_true, Bool.not_eq_true']
    split
    next hbits =>
      split
      next hle => exact h.roundUp_or_le hk' hbits.2 hax hcy
      next hgt =>
        -- `x` is not above the raised end, so it has the high bits of `a`
        have hlt : x < roundUp a k := lt_of_le_of_lt hxb (BitVec.not_le.mp hgt)
        refine ih hk'.le (lowEnds_of_succ h (fun _ _ => agreeFrom_of_lt_roundUp hk' hax hlt) ?_)
        intro ha
        rw [hbits.1] at ha
        exact absurd ha (by decide)
    next hbits =>
      split
      next hbits' =>
        split
        next hle =>
          have hbound := h.symm.roundUp_or_le hk' hbits'.1 hcy hax
          rw [BitVec.or_comm y, BitVec.or_comm _ a] at hbound
          exact hbound
        next hgt =>
          have hlt : y < roundUp c k := lt_of_le_of_lt hyd (BitVec.not_le.mp hgt)
          refine ih hk'.le (lowEnds_of_succ h ?_ (fun _ _ => agreeFrom_of_lt_roundUp hk' hcy hlt))
          intro ha
          rw [hbits'.1] at ha
          exact absurd ha (by decide)
      next hbits' =>
        exact ih hk'.le (lowEnds_of_succ h (fun ha hc => absurd ⟨ha, hc⟩ hbits)
          (fun ha hc => absurd ⟨ha, hc⟩ hbits'))

theorem minOR_le (hax : a ≤ x) (hxb : x ≤ b) (hcy : c ≤ y) (hyd : y ≤ d) :
    minOR a b c d ≤ x ||| y := by
  apply minORLoop_le hax hxb hcy hyd le_rfl
  intro j hj
  rw [BitVec.getLsbD_of_ge a j hj, BitVec.getLsbD_of_ge c j hj]
  exact ⟨fun _ h => absurd h (by decide), fun h => absurd h (by decide)⟩

theorem le_maxORLoop (hax : a ≤ x) (hxb : x ≤ b) (hcy : c ≤ y) (hyd : y ≤ d) (hk : k ≤ 64)
    (h : HighEnds x y b d k) : x ||| y ≤ maxORLoop a b c d k := by
  induction k with
  | zero => exact h.le_or hxb hyd
  | succ k ih =>
    have hk' : k < 64 := by omega
    simp only [maxORLoop, and_twoPow_ne_zero hk', BitVec.getLsbD_and, Bool.and_eq_true]
    split
    next hbits =>
      rw [sub_twoPow_or hbits.1, sub_twoPow_or hbits.2]
      split
      next hle => exact h.le_roundDown_or hk' hbits.2 hxb hyd
      next hgt =>
        split
        next hle =>
          have hbound := h.symm.le_roundDown_or hk' hbits.1 hyd hxb
          rw [BitVec.or_comm y, BitVec.or_comm _ b] at hbound
          exact hbound
        next hgt' =>
          -- neither number is below the lowered end
          have hx : AgreeFrom x b k :=
            agreeFrom_of_roundDown_lt hk' hxb (lt_of_lt_of_le (BitVec.not_le.mp hgt) hax)
          have hy : AgreeFrom y d k :=
            agreeFrom_of_roundDown_lt hk' hyd (lt_of_lt_of_le (BitVec.not_le.mp hgt') hcy)
          exact ih hk'.le (highEnds_of_succ h (fun _ _ => ⟨hx, hy⟩))
    next hbits => exact ih hk'.le (highEnds_of_succ h (fun hb hd => absurd ⟨hb, hd⟩ hbits))

theorem le_maxOR (hax : a ≤ x) (hxb : x ≤ b) (hcy : c ≤ y) (hyd : y ≤ d) :
    x ||| y ≤ maxOR a b c d := by
  apply le_maxORLoop hax hxb hcy hyd le_rfl
  intro j hj hb
  rw [BitVec.getLsbD_of_ge b j hj] at hb
  exact absurd hb (by decide)

/-! ### Conjunctions, by complement -/

theorem roundUp_le_iff (hk : k < 64) :
    roundUp a k ≤ b ↔ ~~~b ≤ roundDown (~~~a) k := by
  rw [roundUp_eq_not_roundDown hk, ← not_le_not, BitVec.not_not]

theorem minANDLoop_eq (hk : k ≤ 64) :
    minANDLoop a b c d k = ~~~maxORLoop (~~~b) (~~~a) (~~~d) (~~~c) k := by
  induction k with
  | zero =>
    rw [minANDLoop, maxORLoop, BitVec.not_or, BitVec.not_not, BitVec.not_not]
  | succ k ih =>
    have hk' : k < 64 := by omega
    have hih := ih hk'.le
    unfold minANDLoop maxORLoop
    dsimp only
    by_cases hbits : ~~~a &&& ~~~c &&& BitVec.twoPow 64 k ≠ 0
    · rw [if_pos hbits, if_pos hbits]
      rw [and_twoPow_ne_zero hk', BitVec.getLsbD_and, Bool.and_eq_true] at hbits
      rw [sub_twoPow_or hbits.1, sub_twoPow_or hbits.2]
      change (if roundUp a k ≤ b then roundUp a k &&& c
        else if roundUp c k ≤ d then a &&& roundUp c k else minANDLoop a b c d k) = _
      simp only [roundUp_le_iff hk', apply_ite (~~~ · : BitVec 64 → BitVec 64), hih, BitVec.not_or,
        BitVec.not_not, ← roundUp_eq_not_roundDown hk']
    · rw [if_neg hbits, if_neg hbits]
      exact hih

theorem maxANDLoop_eq (hk : k ≤ 64) :
    maxANDLoop a b c d k = ~~~minORLoop (~~~b) (~~~a) (~~~d) (~~~c) k := by
  induction k with
  | zero =>
    rw [maxANDLoop, minORLoop, BitVec.not_or, BitVec.not_not, BitVec.not_not]
  | succ k ih =>
    have hk' : k < 64 := by omega
    have hih := ih hk'.le
    unfold maxANDLoop minORLoop
    dsimp only
    change (if b &&& ~~~d &&& _ ≠ 0 then if a ≤ roundDown b k then roundDown b k &&& d else _
      else if ~~~b &&& d &&& _ ≠ 0 then if c ≤ roundDown d k then b &&& roundDown d k else _ else _)
      = ~~~(if _ then if roundUp (~~~b) k ≤ ~~~a then roundUp (~~~b) k ||| ~~~d else _
      else if _ then if roundUp (~~~d) k ≤ ~~~c then ~~~b ||| roundUp (~~~d) k else _ else _)
    simp only [roundUp_eq_not_roundDown hk', not_le_not, apply_ite (~~~ · : BitVec 64 → BitVec 64),
      hih, BitVec.not_or, BitVec.not_not]

theorem minAND_le (hax : a ≤ x) (hxb : x ≤ b) (hcy : c ≤ y) (hyd : y ≤ d) :
    minAND a b c d ≤ x &&& y := by
  rw [minAND, minANDLoop_eq le_rfl, ← not_le_not, BitVec.not_not, BitVec.not_and]
  exact le_maxOR (not_le_not.mpr hxb) (not_le_not.mpr hax) (not_le_not.mpr hyd) (not_le_not.mpr hcy)

theorem le_maxAND (hax : a ≤ x) (hxb : x ≤ b) (hcy : c ≤ y) (hyd : y ≤ d) :
    x &&& y ≤ maxAND a b c d := by
  rw [maxAND, maxANDLoop_eq le_rfl, ← not_le_not, BitVec.not_not, BitVec.not_and]
  exact minOR_le (not_le_not.mpr hxb) (not_le_not.mpr hax) (not_le_not.mpr hyd) (not_le_not.mpr hcy)

/-! ### The bounds are taken

Each loop ends with one of the four numbers replaced by a word between the two ends of its own
interval, or with none replaced. So its result is a value that the operation has. -/

/-- What an operation gives over two intervals. -/
def Values (op : BitVec 64 → BitVec 64 → BitVec 64) (a b c d : BitVec 64) : Set (BitVec 64) :=
  {z | ∃ x y, (a ≤ x ∧ x ≤ b) ∧ (c ≤ y ∧ y ≤ d) ∧ op x y = z}

theorem le_roundUp (hk : k < 64) (ha : a.getLsbD k = false) : a ≤ roundUp a k := by
  have hbit : (~~~a).getLsbD k = true := by
    rw [BitVec.getLsbD_not, ha, decide_eq_true hk]
    rfl
  rw [roundUp_eq_not_roundDown hk, ← not_le_not, BitVec.not_not]
  exact roundDown_le hbit

theorem minORLoop_mem (hab : a ≤ b) (hcd : c ≤ d) (hk : k ≤ 64) :
    minORLoop a b c d k ∈ Values (· ||| ·) a b c d := by
  induction k with
  | zero => exact ⟨a, c, ⟨BitVec.le_refl _, hab⟩, ⟨BitVec.le_refl _, hcd⟩, rfl⟩
  | succ k ih =>
    have hk' : k < 64 := by omega
    simp only [minORLoop, and_twoPow_ne_zero hk', BitVec.getLsbD_and, BitVec.getLsbD_not, hk',
      decide_true, Bool.true_and, Bool.and_eq_true, Bool.not_eq_true']
    split
    next hbits =>
      split
      next hle => exact ⟨roundUp a k, c, ⟨le_roundUp hk' hbits.1, hle⟩, ⟨BitVec.le_refl _, hcd⟩, rfl⟩
      next hgt => exact ih hk'.le
    next hbits =>
      split
      next hbits' =>
        split
        next hle => exact ⟨a, roundUp c k, ⟨BitVec.le_refl _, hab⟩, ⟨le_roundUp hk' hbits'.2, hle⟩, rfl⟩
        next hgt => exact ih hk'.le
      next hbits' => exact ih hk'.le

theorem maxORLoop_mem (hab : a ≤ b) (hcd : c ≤ d) (hk : k ≤ 64) :
    maxORLoop a b c d k ∈ Values (· ||| ·) a b c d := by
  induction k with
  | zero => exact ⟨b, d, ⟨hab, BitVec.le_refl _⟩, ⟨hcd, BitVec.le_refl _⟩, rfl⟩
  | succ k ih =>
    have hk' : k < 64 := by omega
    simp only [maxORLoop, and_twoPow_ne_zero hk', BitVec.getLsbD_and, Bool.and_eq_true]
    split
    next hbits =>
      rw [sub_twoPow_or hbits.1, sub_twoPow_or hbits.2]
      split
      next hle => exact ⟨roundDown b k, d, ⟨hle, roundDown_le hbits.1⟩, ⟨hcd, BitVec.le_refl _⟩, rfl⟩
      next hgt =>
        split
        next hle => exact ⟨b, roundDown d k, ⟨hab, BitVec.le_refl _⟩, ⟨hle, roundDown_le hbits.2⟩, rfl⟩
        next hgt' => exact ih hk'.le
    next hbits => exact ih hk'.le

/-- Complements turn the values of a disjunction into those of a conjunction. -/
theorem not_mem_values {z : BitVec 64}
    (h : z ∈ Values (· ||| ·) (~~~b) (~~~a) (~~~d) (~~~c)) : ~~~z ∈ Values (· &&& ·) a b c d := by
  obtain ⟨x, y, ⟨hbx, hxa⟩, ⟨hdy, hyc⟩, rfl⟩ := h
  refine ⟨~~~x, ~~~y, ⟨?_, ?_⟩, ⟨?_, ?_⟩, (BitVec.not_or).symm⟩
  · rw [← not_le_not, BitVec.not_not]
    exact hxa
  · rw [← not_le_not, BitVec.not_not]
    exact hbx
  · rw [← not_le_not, BitVec.not_not]
    exact hyc
  · rw [← not_le_not, BitVec.not_not]
    exact hdy

theorem minOR_mem (hab : a ≤ b) (hcd : c ≤ d) : minOR a b c d ∈ Values (· ||| ·) a b c d :=
  minORLoop_mem hab hcd le_rfl

theorem maxOR_mem (hab : a ≤ b) (hcd : c ≤ d) : maxOR a b c d ∈ Values (· ||| ·) a b c d :=
  maxORLoop_mem hab hcd le_rfl

theorem minAND_mem (hab : a ≤ b) (hcd : c ≤ d) : minAND a b c d ∈ Values (· &&& ·) a b c d := by
  rw [minAND, minANDLoop_eq le_rfl]
  exact not_mem_values (maxOR_mem (not_le_not.mpr hab) (not_le_not.mpr hcd))

theorem maxAND_mem (hab : a ≤ b) (hcd : c ≤ d) : maxAND a b c d ∈ Values (· &&& ·) a b c d := by
  rw [maxAND, maxANDLoop_eq le_rfl]
  exact not_mem_values (minOR_mem (not_le_not.mpr hab) (not_le_not.mpr hcd))

/-- The four functions give the least and the greatest value over two intervals that are not
empty. -/
theorem bitwise_bounds_exact (a b c d : BitVec 64) (hab : a ≤ b) (hcd : c ≤ d) :
    IsLeast (Values (· ||| ·) a b c d) (minOR a b c d)
      ∧ IsGreatest (Values (· ||| ·) a b c d) (maxOR a b c d)
      ∧ IsLeast (Values (· &&& ·) a b c d) (minAND a b c d)
      ∧ IsGreatest (Values (· &&& ·) a b c d) (maxAND a b c d) := by
  refine ⟨⟨minOR_mem hab hcd, ?_⟩, ⟨maxOR_mem hab hcd, ?_⟩, ⟨minAND_mem hab hcd, ?_⟩,
    maxAND_mem hab hcd, ?_⟩
  · rintro z ⟨x, y, hx, hy, rfl⟩
    exact minOR_le hx.1 hx.2 hy.1 hy.2
  · rintro z ⟨x, y, hx, hy, rfl⟩
    exact le_maxOR hx.1 hx.2 hy.1 hy.2
  · rintro z ⟨x, y, hx, hy, rfl⟩
    exact minAND_le hx.1 hx.2 hy.1 hy.2
  · rintro z ⟨x, y, hx, hy, rfl⟩
    exact le_maxAND hx.1 hx.2 hy.1 hy.2

/-- The intervals from 5 to 6 and from 9 to 12, where each of the loops replaces an end. -/
theorem bitwise_bounds_exact_input :
    (minOR 5 6 9 12 = 13 ∧ maxOR 5 6 9 12 = 15 ∧ minAND 5 6 9 12 = 0 ∧ maxAND 5 6 9 12 = 4)
      ∧ IsLeast (Values (· ||| ·) 5 6 9 12) (minOR 5 6 9 12)
      ∧ IsGreatest (Values (· ||| ·) 5 6 9 12) (maxOR 5 6 9 12)
      ∧ IsLeast (Values (· &&& ·) 5 6 9 12) (minAND 5 6 9 12)
      ∧ IsGreatest (Values (· &&& ·) 5 6 9 12) (maxAND 5 6 9 12) :=
  ⟨by decide, bitwise_bounds_exact 5 6 9 12 (by decide) (by decide)⟩

end Bounds

/-! ## Sign extension -/

/-- `ints::sext` of `include/klee/Internal/Support/IntEvaluation.h`, for
`0 < inWidth ≤ 64`. -/
def ints.sext (l : BitVec 64) (outWidth inWidth : ℕ) : BitVec 64 :=
  let numInvalidBits := 64 - inWidth
  bits64.truncateToNBits ((l <<< numInvalidBits).sshiftRight numInvalidBits) outWidth

/-- `std::min`. -/
def stdMin (a b : BitVec 64) : BitVec 64 := if b < a then b else a

/-- `std::max`. -/
def stdMax (a b : BitVec 64) : BitVec 64 := if a < b then b else a

/-! ## Ranges -/

structure ValueRange where
  m_min : BitVec 64
  m_max : BitVec 64
deriving DecidableEq

namespace ValueRange

/-- `ValueRange()`. -/
def empty : ValueRange := ⟨1, 0⟩

/-- `ValueRange(const ref<ConstantExpr> &)`, with `getLimitedValue()`. -/
def ofConstant (ce : APInt) : ValueRange :=
  let value := BitVec.ofNat 64 (min ce.toNat (2 ^ 64 - 1))
  ⟨value, value⟩

/-- `ValueRange(uint64_t)`. -/
def ofValue (value : BitVec 64) : ValueRange := ⟨value, value⟩

def isEmpty (r : ValueRange) : Bool := r.m_max < r.m_min

def isFixed (r : ValueRange) : Bool := r.m_min = r.m_max

/-- `bits64::maxValueOfNBits` shifts by `64 - N`. -/
def maxValueOfNBits (n : ℕ) : Option (BitVec 64) :=
  if n ≤ 64 then some (bits64.maxValueOfNBits n) else none

/-- `isFullRange`, for at most 64 bits. -/
def isFullRange (r : ValueRange) (bits : ℕ) : Bool :=
  r.m_min = 0 ∧ r.m_max = bits64.maxValueOfNBits bits

def set_intersection (r b : ValueRange) : ValueRange := ⟨stdMax r.m_min b.m_min, stdMin r.m_max b.m_max⟩

def set_union (r b : ValueRange) : ValueRange := ⟨stdMin r.m_min b.m_min, stdMax r.m_max b.m_max⟩

def set_difference (r b : ValueRange) : ValueRange :=
  if b.isEmpty ∨ r.m_max < b.m_min ∨ b.m_max < r.m_min then r
  else if b.m_min ≤ r.m_min ∧ r.m_max ≤ b.m_max then ⟨1, 0⟩
  else if b.m_min ≤ r.m_min then ⟨b.m_max + 1, r.m_max⟩
  else if r.m_max ≤ b.m_max then ⟨r.m_min, b.m_min - 1⟩
  else ⟨r.m_min, b.m_min - 1⟩

def intersects (r b : ValueRange) : Bool := !(r.set_intersection b).isEmpty

/-- `binaryAnd`, with `assert(!isEmpty() && !b.isEmpty())`. -/
def binaryAnd (r b : ValueRange) : Option ValueRange :=
  if r.isEmpty ∨ b.isEmpty then none
  else if r.isFixed ∧ b.isFixed then some (ofValue (r.m_min &&& b.m_min))
  else some ⟨minAND r.m_min r.m_max b.m_min b.m_max, maxAND r.m_min r.m_max b.m_min b.m_max⟩

/-- `binaryOr`, with `assert(!isEmpty() && !b.isEmpty())`. -/
def binaryOr (r b : ValueRange) : Option ValueRange :=
  if r.isEmpty ∨ b.isEmpty then none
  else if r.isFixed ∧ b.isFixed then some (ofValue (r.m_min ||| b.m_min))
  else some ⟨minOR r.m_min r.m_max b.m_min b.m_max, maxOR r.m_min r.m_max b.m_min b.m_max⟩

/-- The loop of `binaryXor`. It takes off one bit in each round, and does not end for 0. -/
def highestBit : ℕ → BitVec 64 → Option (BitVec 64)
  | 0, _ => none
  | rounds + 1, t =>
      if bits64.isPowerOfTwo t then some t else highestBit rounds (bits64.withoutRightmostBit t)

def binaryXor (r b : ValueRange) : Option ValueRange :=
  if r.isFixed ∧ b.isFixed then some (ofValue (r.m_min ^^^ b.m_min))
  else do
    let t ← highestBit 64 (r.m_max ||| b.m_max)
    return ⟨0, (t <<< 1) - 1⟩

def binaryShiftLeft (r : ValueRange) (bits : ℕ) : Option ValueRange :=
  if bits < 64 then some ⟨r.m_min <<< bits, r.m_max <<< bits⟩ else none

def binaryShiftRight (r : ValueRange) (bits : ℕ) : Option ValueRange :=
  if bits < 64 then some ⟨r.m_min >>> bits, r.m_max >>> bits⟩ else none

def concat (r b : ValueRange) (bits : ℕ) : Option ValueRange := do
  let r ← r.binaryShiftLeft bits
  r.binaryOr b

def extract (r : ValueRange) (lowBit maxBit : ℕ) : Option ValueRange := do
  let r ← r.binaryShiftRight lowBit
  let mask ← maxValueOfNBits (maxBit - lowBit)
  r.binaryAnd (ofValue mask)

/-- All values of a width: `add`, `sub`, `mul`, `udiv`, `sdiv`, `urem` and `srem` return it,
and `ExprRangeEvaluator` where it knows nothing. -/
def full (width : ℕ) : Option ValueRange := (maxValueOfNBits width).map fun max => ⟨0, max⟩

def mustEqual (r b : ValueRange) : Bool := r.isFixed ∧ b.isFixed ∧ r.m_min = b.m_min

def mustEqualValue (r : ValueRange) (b : BitVec 64) : Bool := r.m_min = r.m_max ∧ r.m_min = b

def mayEqual (r b : ValueRange) : Bool := r.intersects b

/-- `min`, with `assert(!isEmpty())`. -/
def min? (r : ValueRange) : Option (BitVec 64) := if r.isEmpty then none else some r.m_min

/-- `max`, with `assert(!isEmpty())`. -/
def max? (r : ValueRange) : Option (BitVec 64) := if r.isEmpty then none else some r.m_max

/-- "range is outside given number of bits". -/
def checkBits (r : ValueRange) (bits : ℕ) : Option Unit :=
  if bits < 64 ∧ r.m_min >>> bits = 0 ∧ r.m_max >>> bits = 0 then some () else none

/-- `minSigned`, an `int64_t`. -/
def minSigned (r : ValueRange) (bits : ℕ) : Option (BitVec 64) := do
  r.checkBits bits
  let smallest := 1#64 <<< (bits - 1)
  return if smallest ≤ r.m_max then ints.sext smallest 64 bits else r.m_min

/-- `maxSigned`, an `int64_t`. -/
def maxSigned (r : ValueRange) (bits : ℕ) : Option (BitVec 64) := do
  r.checkBits bits
  let smallest := 1#64 <<< (bits - 1)
  return if r.m_min < smallest ∧ smallest ≤ r.m_max then smallest - 1 else ints.sext r.m_max 64 bits

/-! ## What the operations keep -/

/-- The numbers of a range. -/
def Contains (r : ValueRange) (n : ℕ) : Prop := r.m_min.toNat ≤ n ∧ n ≤ r.m_max.toNat

/-- The range has no number outside of the width. -/
def Within (r : ValueRange) (width : ℕ) : Prop := r.m_max.toNat < 2 ^ width

variable {r b : ValueRange} {n m width : ℕ}

theorem toNat_stdMin (x y : BitVec 64) : (stdMin x y).toNat = min x.toNat y.toNat := by
  unfold stdMin
  split
  next h =>
    rw [BitVec.lt_def] at h
    omega
  next h =>
    rw [BitVec.lt_def] at h
    omega

theorem toNat_stdMax (x y : BitVec 64) : (stdMax x y).toNat = max x.toNat y.toNat := by
  unfold stdMax
  split
  next h =>
    rw [BitVec.lt_def] at h
    omega
  next h =>
    rw [BitVec.lt_def] at h
    omega

theorem isEmpty_iff : r.isEmpty = true ↔ r.m_max.toNat < r.m_min.toNat := by
  rw [isEmpty, decide_eq_true_eq, BitVec.lt_def]

theorem isFixed_iff : r.isFixed = true ↔ r.m_min = r.m_max := decide_eq_true_iff

theorem Contains.not_isEmpty (h : r.Contains n) : r.isEmpty = false := by
  rw [← Bool.not_eq_true, isEmpty_iff]
  have := h.1
  have := h.2
  omega

theorem exists_contains (h : r.isEmpty = false) : r.Contains r.m_min.toNat := by
  rw [← Bool.not_eq_true, isEmpty_iff] at h
  exact ⟨le_rfl, Nat.le_of_not_lt h⟩

theorem Contains.lt (h : r.Contains n) : n < 2 ^ 64 := Nat.lt_of_le_of_lt h.2 r.m_max.isLt

theorem Contains.toNat_ofNat (h : r.Contains n) : (BitVec.ofNat 64 n).toNat = n := by
  rw [BitVec.toNat_ofNat, Nat.mod_eq_of_lt h.lt]

theorem Contains.between (h : r.Contains n) :
    r.m_min ≤ BitVec.ofNat 64 n ∧ BitVec.ofNat 64 n ≤ r.m_max := by
  rw [BitVec.le_def, BitVec.le_def, h.toNat_ofNat]
  exact h

theorem Contains.lt_of_within (h : r.Contains n) (hr : r.Within width) : n < 2 ^ width :=
  Nat.lt_of_le_of_lt h.2 hr

/-- The number of a range that is fixed. -/
theorem Contains.eq_of_isFixed (h : r.Contains n) (hr : r.isFixed = true) : n = r.m_min.toNat := by
  rw [isFixed_iff] at hr
  have h1 := h.1
  have h2 := h.2
  rw [← hr] at h2
  omega

theorem contains_ofValue (v : BitVec 64) : (ofValue v).Contains v.toNat := ⟨le_rfl, le_rfl⟩

theorem within_ofValue {v : BitVec 64} : (ofValue v).Within width ↔ v.toNat < 2 ^ width := Iff.rfl

theorem contains_ofConstant {c : APInt} (h : c.toNat < 2 ^ 64) : (ofConstant c).Contains c.toNat := by
  have hvalue : (BitVec.ofNat 64 (min c.toNat (2 ^ 64 - 1))).toNat = c.toNat := by
    rw [BitVec.toNat_ofNat, Nat.mod_eq_of_lt (by omega)]
    omega
  exact ⟨hvalue.le, hvalue.ge⟩

theorem within_ofConstant (c : APInt) : (ofConstant c).Within c.width := by
  have hlt : c.toNat < 2 ^ c.width := c.bits.isLt
  show (BitVec.ofNat 64 (min c.toNat (2 ^ 64 - 1))).toNat < 2 ^ c.width
  rw [BitVec.toNat_ofNat, Nat.mod_eq_of_lt (by omega)]
  omega

/-! ### Union and intersection -/

theorem Contains.set_union_left (h : r.Contains n) (b : ValueRange) :
    (r.set_union b).Contains n := by
  unfold Contains set_union
  rw [toNat_stdMin, toNat_stdMax]
  exact ⟨(Nat.min_le_left _ _).trans h.1, h.2.trans (Nat.le_max_left _ _)⟩

theorem Contains.set_union_right (h : b.Contains n) (r : ValueRange) :
    (r.set_union b).Contains n := by
  unfold Contains set_union
  rw [toNat_stdMin, toNat_stdMax]
  exact ⟨(Nat.min_le_right _ _).trans h.1, h.2.trans (Nat.le_max_right _ _)⟩

theorem Within.set_union (h : r.Within width) (hb : b.Within width) :
    (r.set_union b).Within width := by
  show (stdMax _ _).toNat < _
  rw [toNat_stdMax]
  exact Nat.max_lt.mpr ⟨h, hb⟩

/-- A number of both ranges. -/
theorem Contains.set_intersection (h : r.Contains n) (hb : b.Contains n) :
    (r.set_intersection b).Contains n := by
  unfold Contains ValueRange.set_intersection
  rw [toNat_stdMin, toNat_stdMax]
  exact ⟨Nat.max_le.mpr ⟨h.1, hb.1⟩, Nat.le_min.mpr ⟨h.2, hb.2⟩⟩

theorem mayEqual_of_contains (h : r.Contains n) (hb : b.Contains n) : r.mayEqual b = true := by
  rw [mayEqual, intersects, (h.set_intersection hb).not_isEmpty]
  rfl

theorem eq_of_mustEqual (heq : r.mustEqual b = true) (h : r.Contains n) (hb : b.Contains m) :
    n = m := by
  rw [mustEqual, decide_eq_true_eq] at heq
  rw [h.eq_of_isFixed heq.1, hb.eq_of_isFixed heq.2.1, heq.2.2]

theorem eq_of_mustEqualValue {v : BitVec 64} (heq : r.mustEqualValue v = true) (h : r.Contains n) :
    n = v.toNat := by
  rw [mustEqualValue, decide_eq_true_eq] at heq
  rw [h.eq_of_isFixed (isFixed_iff.mpr heq.1), heq.2]

/-! ### Bitwise operations -/

theorem exists_binaryAnd (h : r.Contains n) (hb : b.Contains m) :
    ∃ s, r.binaryAnd b = some s ∧ s.Contains (n &&& m) := by
  have hempty : ¬(r.isEmpty = true ∨ b.isEmpty = true) := by
    rw [h.not_isEmpty, hb.not_isEmpty]
    decide
  unfold binaryAnd
  rw [if_neg hempty]
  by_cases hfixed : r.isFixed = true ∧ b.isFixed = true
  · rw [if_pos hfixed]
    refine ⟨_, rfl, ?_⟩
    rw [h.eq_of_isFixed hfixed.1, hb.eq_of_isFixed hfixed.2, ← BitVec.toNat_and]
    exact contains_ofValue _
  · rw [if_neg hfixed]
    refine ⟨_, rfl, ?_⟩
    have hn := h.between
    have hm := hb.between
    have hlow := minAND_le hn.1 hn.2 hm.1 hm.2
    have hhigh := le_maxAND hn.1 hn.2 hm.1 hm.2
    rw [BitVec.le_def, BitVec.toNat_and, h.toNat_ofNat, hb.toNat_ofNat] at hlow hhigh
    exact ⟨hlow, hhigh⟩

theorem exists_binaryOr (h : r.Contains n) (hb : b.Contains m) :
    ∃ s, r.binaryOr b = some s ∧ s.Contains (n ||| m) := by
  have hempty : ¬(r.isEmpty = true ∨ b.isEmpty = true) := by
    rw [h.not_isEmpty, hb.not_isEmpty]
    decide
  unfold binaryOr
  rw [if_neg hempty]
  by_cases hfixed : r.isFixed = true ∧ b.isFixed = true
  · rw [if_pos hfixed]
    refine ⟨_, rfl, ?_⟩
    rw [h.eq_of_isFixed hfixed.1, hb.eq_of_isFixed hfixed.2, ← BitVec.toNat_or]
    exact contains_ofValue _
  · rw [if_neg hfixed]
    refine ⟨_, rfl, ?_⟩
    have hn := h.between
    have hm := hb.between
    have hlow := minOR_le hn.1 hn.2 hm.1 hm.2
    have hhigh := le_maxOR hn.1 hn.2 hm.1 hm.2
    rw [BitVec.le_def, BitVec.toNat_or, h.toNat_ofNat, hb.toNat_ofNat] at hlow hhigh
    exact ⟨hlow, hhigh⟩

theorem maxANDLoop_le (a b c d : BitVec 64) (k : ℕ) :
    maxANDLoop a b c d k ≤ b ∨ maxANDLoop a b c d k ≤ d := by
  have hleft : ∀ x y : BitVec 64, x &&& y ≤ x := fun x y => by
    rw [BitVec.le_def, BitVec.toNat_and]
    exact Nat.and_le_left
  have hright : ∀ x y : BitVec 64, x &&& y ≤ y := fun x y => by
    rw [BitVec.le_def, BitVec.toNat_and]
    exact Nat.and_le_right
  induction k with
  | zero => exact .inl (hleft b d)
  | succ k ih =>
    unfold maxANDLoop
    dsimp only
    split_ifs
    · exact .inr (hright _ d)
    · exact ih
    · exact .inl (hleft b _)
    · exact ih
    · exact ih

theorem maxORLoop_eq (a b c d : BitVec 64) {k : ℕ} (hk : k ≤ 64) :
    ∃ u v, maxORLoop a b c d k = u ||| v ∧ u ≤ b ∧ v ≤ d := by
  induction k with
  | zero => exact ⟨b, d, rfl, BitVec.le_refl b, BitVec.le_refl d⟩
  | succ k ih =>
    have hk' : k < 64 := by omega
    simp only [maxORLoop, and_twoPow_ne_zero hk', BitVec.getLsbD_and, Bool.and_eq_true]
    split
    next hbits =>
      rw [sub_twoPow_or hbits.1, sub_twoPow_or hbits.2]
      split
      next => exact ⟨_, d, rfl, BitOrder.roundDown_le hbits.1, BitVec.le_refl d⟩
      next =>
        split
        next => exact ⟨b, _, rfl, BitVec.le_refl b, BitOrder.roundDown_le hbits.2⟩
        next => exact ih hk'.le
    next => exact ih hk'.le

theorem Within.binaryAnd {s : ValueRange} (h : r.Within width) (hb : b.Within width)
    (heq : r.binaryAnd b = some s) : s.Within width := by
  unfold ValueRange.binaryAnd at heq
  split_ifs at heq with hempty hfixed
  · obtain rfl := Option.some.inj heq
    rw [within_ofValue, BitVec.toNat_and, isFixed_iff.mp hfixed.1]
    exact Nat.lt_of_le_of_lt Nat.and_le_left h
  · obtain rfl := Option.some.inj heq
    show (maxAND _ _ _ _).toNat < _
    rcases maxANDLoop_le r.m_min r.m_max b.m_min b.m_max 64 with hle | hle
    · exact Nat.lt_of_le_of_lt hle h
    · exact Nat.lt_of_le_of_lt hle hb

theorem Within.binaryOr {s : ValueRange} (h : r.Within width) (hb : b.Within width)
    (heq : r.binaryOr b = some s) : s.Within width := by
  unfold ValueRange.binaryOr at heq
  split_ifs at heq with hempty hfixed
  · obtain rfl := Option.some.inj heq
    rw [within_ofValue, BitVec.toNat_or, isFixed_iff.mp hfixed.1, isFixed_iff.mp hfixed.2]
    exact Nat.or_lt_two_pow h hb
  · obtain rfl := Option.some.inj heq
    obtain ⟨u, v, huv, hu, hv⟩ := maxORLoop_eq r.m_min r.m_max b.m_min b.m_max le_rfl
    show (maxORLoop _ _ _ _ _).toNat < _
    rw [huv, BitVec.toNat_or]
    exact Nat.or_lt_two_pow (Nat.lt_of_le_of_lt hu h) (Nat.lt_of_le_of_lt hv hb)

/-! ### The loop of `binaryXor` -/

/-- The highest bit of a word is found, if no bit is set below as many as there are rounds
missing. -/
theorem exists_highestBit {rounds : ℕ} {t : BitVec 64} (ht : t ≠ 0)
    (hlow : ∀ i, t.getLsbD i = true → 64 ≤ i + rounds) :
    ∃ k < 64, highestBit rounds t = some (BitVec.twoPow 64 k) ∧ t.getLsbD k = true
      ∧ ∀ i > k, t.getLsbD i = false := by
  induction rounds generalizing t with
  | zero =>
    refine absurd (BitVec.eq_of_getLsbD_eq ?_) ht
    intro i hi
    have hzero : (0 : BitVec 64).getLsbD i = false := BitVec.getLsbD_zero
    rw [hzero, ← Bool.not_eq_true]
    intro hbit
    have := hlow i hbit
    omega
  | succ rounds ih =>
    unfold highestBit
    cases hpow : bits64.isPowerOfTwo t with
    | true =>
      obtain ⟨k, hk, rfl⟩ := exists_eq_twoPow hpow
      refine ⟨k, hk, rfl, by simp [BitVec.getLsbD_twoPow, hk, -BitVec.getLsbD_eq_getElem], ?_⟩
      intro i hi
      simp [BitVec.getLsbD_twoPow, hi.ne]
    | false =>
      have hrest : bits64.withoutRightmostBit t ≠ 0 := by
        intro hzero
        rw [bits64.isPowerOfTwo, bne_iff_ne.mpr ht, Bool.true_and] at hpow
        rw [bits64.withoutRightmostBit] at hzero
        rw [hzero] at hpow
        exact absurd hpow (by decide)
      obtain ⟨k, hk, heq, hbit, habove⟩ := ih hrest fun i hi => by
        obtain ⟨-, j, hji, hj⟩ := (getLsbD_withoutRightmostBit t i).mp hi
        have := hlow j hj
        omega
      refine ⟨k, hk, heq, ((getLsbD_withoutRightmostBit t k).mp hbit).1, ?_⟩
      intro i hi
      rw [← Bool.not_eq_true]
      intro hti
      have hkept := (getLsbD_withoutRightmostBit t i).mpr
        ⟨hti, k, hi, ((getLsbD_withoutRightmostBit t k).mp hbit).1⟩
      rw [habove i hi] at hkept
      exact absurd hkept (by decide)

/-- A word lies between its highest bit and the next one. -/
theorem between_of_highest {t : BitVec 64} {k : ℕ} (hbit : t.getLsbD k = true)
    (habove : ∀ i > k, t.getLsbD i = false) : 2 ^ k ≤ t.toNat ∧ t.toNat < 2 ^ (k + 1) := by
  constructor
  · apply Nat.ge_two_pow_of_testBit
    rw [BitVec.testBit_toNat]
    exact hbit
  · apply Nat.lt_pow_two_of_testBit
    intro i hi
    rw [BitVec.testBit_toNat]
    exact habove i (by omega)

theorem toNat_twoPow_shiftLeft_sub {k : ℕ} (hk : k < 64) :
    ((BitVec.twoPow 64 k <<< 1) - 1).toNat = 2 ^ (k + 1) - 1 := by
  have hall : ∀ k : Fin 64, ((BitVec.twoPow 64 k.val <<< 1) - 1).toNat = 2 ^ (k.val + 1) - 1 := by
    decide
  exact hall ⟨k, hk⟩

theorem exists_binaryXor (h : r.Contains n) (hb : b.Contains m) (hr : r.Within width)
    (hwb : b.Within width) :
    ∃ s, r.binaryXor b = some s ∧ s.Contains (n ^^^ m) ∧ s.Within width := by
  unfold binaryXor
  by_cases hfixed : r.isFixed = true ∧ b.isFixed = true
  · rw [if_pos hfixed]
    have hvalue : (r.m_min ^^^ b.m_min).toNat = n ^^^ m := by
      rw [BitVec.toNat_xor, h.eq_of_isFixed hfixed.1, hb.eq_of_isFixed hfixed.2]
    refine ⟨_, rfl, hvalue ▸ contains_ofValue _, ?_⟩
    rw [within_ofValue, hvalue]
    exact Nat.xor_lt_two_pow (h.lt_of_within hr) (hb.lt_of_within hwb)
  · rw [if_neg hfixed]
    -- if both upper ends were zero, both ranges would be fixed
    have ht : r.m_max ||| b.m_max ≠ 0 := by
      intro hzero
      obtain ⟨hrz, hbz⟩ := BitVec.or_eq_zero_iff.mp hzero
      refine hfixed ⟨isFixed_iff.mpr ?_, isFixed_iff.mpr ?_⟩
      · have hle := h.1.trans h.2
        rw [hrz] at hle ⊢
        exact BitVec.eq_of_toNat_eq (Nat.le_zero.mp hle)
      · have hle := hb.1.trans hb.2
        rw [hbz] at hle ⊢
        exact BitVec.eq_of_toNat_eq (Nat.le_zero.mp hle)
    obtain ⟨k, hk, heq, hbit, habove⟩ := @exists_highestBit 64 _ ht (fun i _ => by omega)
    obtain ⟨hlow, hhigh⟩ := between_of_highest hbit habove
    rw [BitVec.toNat_or] at hlow hhigh
    have hn : n < 2 ^ (k + 1) := (h.2.trans Nat.left_le_or).trans_lt hhigh
    have hm : m < 2 ^ (k + 1) := (hb.2.trans Nat.right_le_or).trans_lt hhigh
    have hk' : k < width := by
      rw [← Nat.pow_lt_pow_iff_right (show 1 < 2 by decide)]
      exact hlow.trans_lt (Nat.or_lt_two_pow hr hwb)
    refine ⟨⟨0, (BitVec.twoPow 64 k <<< 1) - 1⟩, ?_, ⟨Nat.zero_le _, ?_⟩, ?_⟩
    · rw [heq]
      rfl
    · rw [toNat_twoPow_shiftLeft_sub hk]
      have := Nat.xor_lt_two_pow hn hm
      omega
    · show ((BitVec.twoPow 64 k <<< 1) - 1).toNat < 2 ^ width
      rw [toNat_twoPow_shiftLeft_sub hk]
      have := Nat.pow_le_pow_right (show 0 < 2 by decide) hk'
      have := Nat.two_pow_pos (k + 1)
      omega

/-! ### Shifts -/

theorem exists_concat (h : r.Contains n) (hb : b.Contains m) {bits : ℕ} (hbits : bits < 64)
    (hr : r.Within width) (hwb : b.Within bits) (hwidth : width + bits ≤ 64) :
    ∃ s, r.concat b bits = some s ∧ s.Contains (n * 2 ^ bits + m) ∧ s.Within (width + bits) := by
  have hshift : ∀ x : BitVec 64, x.toNat < 2 ^ width →
      (x <<< bits).toNat = x.toNat * 2 ^ bits := by
    intro x hx
    rw [BitVec.toNat_shiftLeft, Nat.shiftLeft_eq]
    refine Nat.mod_eq_of_lt ?_
    calc x.toNat * 2 ^ bits < 2 ^ width * 2 ^ bits :=
          Nat.mul_lt_mul_of_pos_right hx (Nat.two_pow_pos bits)
      _ = 2 ^ (width + bits) := (Nat.pow_add 2 width bits).symm
      _ ≤ 2 ^ 64 := Nat.pow_le_pow_right (by decide) hwidth
  have hmax := hshift _ hr
  have hmin := hshift _ ((h.1.trans h.2).trans_lt hr)
  have hleft : (⟨r.m_min <<< bits, r.m_max <<< bits⟩ : ValueRange).Contains (n * 2 ^ bits) := by
    unfold Contains
    rw [hmax, hmin]
    exact ⟨Nat.mul_le_mul_right _ h.1, Nat.mul_le_mul_right _ h.2⟩
  have hleft' : (⟨r.m_min <<< bits, r.m_max <<< bits⟩ : ValueRange).Within (width + bits) := by
    unfold Within
    rw [hmax, Nat.pow_add]
    exact Nat.mul_lt_mul_of_pos_right hr (Nat.two_pow_pos bits)
  obtain ⟨s, heq, hs⟩ := exists_binaryOr hleft hb
  have hor : n * 2 ^ bits ||| m = n * 2 ^ bits + m := by
    rw [← Nat.shiftLeft_eq, Nat.shiftLeft_add_eq_or_of_lt (hb.lt_of_within hwb)]
  rw [hor] at hs
  refine ⟨s, ?_, hs, hleft'.binaryOr ?_ heq⟩
  · unfold concat binaryShiftLeft
    rw [if_pos hbits]
    exact heq
  · exact Nat.lt_of_lt_of_le hwb (Nat.pow_le_pow_right (by decide) (Nat.le_add_left _ _))

/-- A part of the bits. -/
theorem exists_extract (h : r.Contains n) {lowBit maxBit : ℕ} (hlow : lowBit < 64)
    (hbits : maxBit - lowBit ≤ 64) :
    ∃ s, r.extract lowBit maxBit = some s
      ∧ s.Contains (n / 2 ^ lowBit % 2 ^ (maxBit - lowBit)) := by
  have hshift : (⟨r.m_min >>> lowBit, r.m_max >>> lowBit⟩ : ValueRange).Contains (n / 2 ^ lowBit) := by
    unfold Contains
    rw [BitVec.toNat_ushiftRight, BitVec.toNat_ushiftRight, Nat.shiftRight_eq_div_pow,
      Nat.shiftRight_eq_div_pow]
    exact ⟨Nat.div_le_div_right h.1, Nat.div_le_div_right h.2⟩
  obtain ⟨s, heq, hs⟩ := exists_binaryAnd hshift
    (contains_ofValue (bits64.maxValueOfNBits (maxBit - lowBit)))
  rw [toNat_maxValueOfNBits hbits, Nat.and_two_pow_sub_one_eq_mod] at hs
  refine ⟨s, ?_, hs⟩
  unfold extract binaryShiftRight maxValueOfNBits
  rw [if_pos hlow, if_pos hbits]
  exact heq

theorem exists_full (hwidth : width ≤ 64) :
    ∃ s, full width = some s ∧ s.Within width ∧ ∀ n < 2 ^ width, s.Contains n := by
  have hmax := toNat_maxValueOfNBits hwidth
  have hpos := Nat.two_pow_pos width
  refine ⟨⟨0, bits64.maxValueOfNBits width⟩, ?_, ?_, ?_⟩
  · unfold full maxValueOfNBits
    rw [if_pos hwidth]
    rfl
  · unfold Within
    rw [hmax]
    omega
  · intro n hn
    refine ⟨Nat.zero_le n, ?_⟩
    rw [hmax]
    omega

/-! ### Signed bounds -/

/-- A number of some bits, read as a signed one. -/
def signedValue (bits n : ℕ) : ℤ := if 2 * n < 2 ^ bits then n else n - 2 ^ bits

theorem toInt_eq_signedValue {w : ℕ} (x : BitVec w) : x.toInt = signedValue w x.toNat := by
  rw [BitVec.toInt_eq_toNat_cond, signedValue]
  push_cast
  rfl

theorem toInt_sext {l : BitVec 64} {bits : ℕ} (hbits : bits ≤ 64) (hl : l.toNat < 2 ^ bits) :
    (ints.sext l 64 bits).toInt = signedValue bits l.toNat := by
  have hpow : 2 ^ bits * 2 ^ (64 - bits) = 2 ^ 64 := by
    rw [← Nat.pow_add]
    congr 1
    omega
  have hpos := Nat.two_pow_pos (64 - bits)
  have hshift : (l <<< (64 - bits)).toNat = l.toNat * 2 ^ (64 - bits) := by
    rw [BitVec.toNat_shiftLeft, Nat.shiftLeft_eq]
    refine Nat.mod_eq_of_lt ?_
    rw [← hpow]
    exact Nat.mul_lt_mul_of_pos_right hl hpos
  have htruncate : ∀ x : BitVec 64, bits64.truncateToNBits x 64 = x := by
    intro x
    apply BitVec.eq_of_toNat_eq
    rw [toNat_truncateToNBits x le_rfl, Nat.mod_eq_of_lt x.isLt]
  have hpow' : (2 : ℤ) ^ bits * 2 ^ (64 - bits) = 2 ^ 64 := by exact_mod_cast hpow
  have hcond : 2 * (l.toNat * 2 ^ (64 - bits)) < 2 ^ 64 ↔ 2 * l.toNat < 2 ^ bits := by
    rw [← hpow, ← Nat.mul_assoc]
    exact Nat.mul_lt_mul_right hpos
  unfold ints.sext
  dsimp only
  rw [htruncate, BitVec.toInt_sshiftRight, Int.shiftRight_eq_div_pow, toInt_eq_signedValue, hshift]
  unfold signedValue
  by_cases h : 2 * l.toNat < 2 ^ bits
  · rw [if_pos h, if_pos (hcond.mpr h)]
    push_cast
    exact Int.mul_ediv_cancel _ (by positivity)
  · rw [if_neg h, if_neg (fun h' => h (hcond.mp h'))]
    have hdiff : ((l.toNat * 2 ^ (64 - bits) : ℕ) : ℤ) - 2 ^ 64
        = (l.toNat - 2 ^ bits) * 2 ^ (64 - bits) := by
      rw [← hpow', Int.sub_mul]
      push_cast
      rfl
    rw [hdiff]
    push_cast
    exact Int.mul_ediv_cancel _ (by positivity)

theorem exists_checkBits (h : r.Contains n) {bits : ℕ} (hbits : bits < 64) (hr : r.Within bits) :
    r.checkBits bits = some () := by
  have hshift : ∀ x : BitVec 64, x.toNat < 2 ^ bits → x >>> bits = 0 := by
    intro x hx
    apply BitVec.eq_of_toNat_eq
    rw [BitVec.toNat_ushiftRight, Nat.shiftRight_eq_div_pow, Nat.div_eq_of_lt hx]
    rfl
  unfold checkBits
  rw [if_pos ⟨hbits, hshift _ ((h.1.trans h.2).trans_lt hr), hshift _ hr⟩]

theorem toNat_one_shiftLeft {k : ℕ} (hk : k < 64) : (1#64 <<< k).toNat = 2 ^ k := by
  rw [BitVec.toNat_shiftLeft, Nat.shiftLeft_eq]
  show 1 * 2 ^ k % 2 ^ 64 = 2 ^ k
  rw [Nat.one_mul]
  exact Nat.mod_eq_of_lt (Nat.pow_lt_pow_right (by decide) hk)

theorem two_pow_eq_two_mul {bits : ℕ} (hpos : 0 < bits) : 2 ^ bits = 2 * 2 ^ (bits - 1) := by
  obtain ⟨k, rfl⟩ := Nat.exists_eq_add_of_lt hpos
  rw [Nat.zero_add, Nat.add_sub_cancel, Nat.pow_succ, Nat.mul_comm]

/-- The value that has the sign bit alone. -/
theorem signedValue_smallest {bits : ℕ} (hpos : 0 < bits) :
    signedValue bits (2 ^ (bits - 1)) = -2 ^ (bits - 1) := by
  have htwo := two_pow_eq_two_mul hpos
  have htwo' : (2 : ℤ) ^ bits = 2 * 2 ^ (bits - 1) := by exact_mod_cast htwo
  unfold signedValue
  rw [if_neg (by omega), htwo']
  push_cast
  omega

theorem signedValue_of_lt {bits : ℕ} (hpos : 0 < bits) (hn : n < 2 ^ (bits - 1)) :
    signedValue bits n = n := by
  have htwo := two_pow_eq_two_mul hpos
  exact if_pos (by omega)

theorem signedValue_of_le {bits : ℕ} (hpos : 0 < bits) (hn : 2 ^ (bits - 1) ≤ n) :
    signedValue bits n = n - 2 ^ bits := by
  have htwo := two_pow_eq_two_mul hpos
  exact if_neg (by omega)

theorem exists_minSigned (h : r.Contains n) {bits : ℕ} (hpos : 0 < bits) (hbits : bits < 64)
    (hr : r.Within bits) :
    ∃ v, r.minSigned bits = some v ∧ v.toInt ≤ signedValue bits n := by
  have hsmallest : (1#64 <<< (bits - 1)).toNat = 2 ^ (bits - 1) := toNat_one_shiftLeft (by omega)
  have htwo := two_pow_eq_two_mul hpos
  have htwo' : (2 : ℤ) ^ bits = 2 * 2 ^ (bits - 1) := by exact_mod_cast htwo
  have hpow : (0 : ℤ) < 2 ^ (bits - 1) := by positivity
  have hin : (1#64 <<< (bits - 1)).toNat < 2 ^ bits := by
    have := Nat.two_pow_pos (bits - 1)
    rw [hsmallest, htwo]
    omega
  refine ⟨_, by rw [minSigned, exists_checkBits h hbits hr]; rfl, ?_⟩
  by_cases hsign : 1#64 <<< (bits - 1) ≤ r.m_max
  · rw [if_pos hsign, toInt_sext hbits.le hin, hsmallest, signedValue_smallest hpos]
    obtain hn | hn := Nat.lt_or_ge n (2 ^ (bits - 1))
    · rw [signedValue_of_lt hpos hn]
      omega
    · rw [signedValue_of_le hpos hn]
      have : ((2 ^ (bits - 1) : ℕ) : ℤ) ≤ n := by exact_mod_cast hn
      push_cast at this
      omega
  · rw [if_neg hsign]
    rw [BitVec.le_def, hsmallest] at hsign
    have hmax := h.2
    have hmin := h.1
    have hword : r.m_min.toInt = r.m_min.toNat := by
      rw [toInt_eq_signedValue]
      have : 2 ^ (bits - 1) ≤ 2 ^ (64 - 1) := Nat.pow_le_pow_right (by decide) (by omega)
      exact signedValue_of_lt (by decide) (by omega)
    rw [hword, signedValue_of_lt hpos (by omega)]
    exact_mod_cast hmin

theorem exists_maxSigned (h : r.Contains n) {bits : ℕ} (hpos : 0 < bits) (hbits : bits < 64)
    (hr : r.Within bits) :
    ∃ v, r.maxSigned bits = some v ∧ signedValue bits n ≤ v.toInt := by
  have hsmallest : (1#64 <<< (bits - 1)).toNat = 2 ^ (bits - 1) := toNat_one_shiftLeft (by omega)
  have htwo := two_pow_eq_two_mul hpos
  have htwo' : (2 : ℤ) ^ bits = 2 * 2 ^ (bits - 1) := by exact_mod_cast htwo
  have hn := h.lt_of_within hr
  have hmax := h.2
  have hmin := h.1
  refine ⟨_, by rw [maxSigned, exists_checkBits h hbits hr]; rfl, ?_⟩
  by_cases hsign : r.m_min < 1#64 <<< (bits - 1) ∧ 1#64 <<< (bits - 1) ≤ r.m_max
  · -- the greatest number without the sign bit
    rw [if_pos hsign]
    have hpow : 0 < 2 ^ (bits - 1) := Nat.two_pow_pos _
    have hvalue : (1#64 <<< (bits - 1) - 1).toNat = 2 ^ (bits - 1) - 1 := by
      rw [BitVec.toNat_sub_of_le, hsmallest]
      · rfl
      · rw [BitVec.le_def, hsmallest]
        exact hpow
    have hword : (1#64 <<< (bits - 1) - 1).toInt = (2 ^ (bits - 1) - 1 : ℕ) := by
      rw [toInt_eq_signedValue, hvalue]
      have : 2 ^ (bits - 1) ≤ 2 ^ (64 - 1) := Nat.pow_le_pow_right (by decide) (by omega)
      exact signedValue_of_lt (by decide) (by omega)
    rw [hword]
    obtain hlow | hhigh := Nat.lt_or_ge n (2 ^ (bits - 1))
    · rw [signedValue_of_lt hpos hlow]
      omega
    · rw [signedValue_of_le hpos hhigh]
      have : (n : ℤ) < 2 ^ bits := by exact_mod_cast hn
      omega
  · rw [if_neg hsign, toInt_sext hbits.le hr]
    rw [BitVec.lt_def, BitVec.le_def, hsmallest] at hsign
    obtain hlow | hhigh := Nat.lt_or_ge r.m_max.toNat (2 ^ (bits - 1))
    · rw [signedValue_of_lt hpos hlow, signedValue_of_lt hpos (by omega)]
      exact_mod_cast hmax
    · rw [signedValue_of_le hpos hhigh, signedValue_of_le hpos (by omega)]
      omega

end ValueRange

end Xklee
