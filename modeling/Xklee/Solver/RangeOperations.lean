/-
Which operations of `ValueRange` are right, and when.

A range is right about an operation if it contains what the operation gives for its members.
`Abstracts` says so for all operations of one call each: a union is the least range with the
members of both, an intersection and a difference have the members that their names say, and
a bound of the signed values is one. None of this can fail for two ranges with members whose
results fit into a word. What remains is stated by `Applies`:

* an empty range is a pair of ends in the wrong order. `set_union` takes these ends for ends of
  its result, so that the empty range is no identity;
* the bounds of signed values shift by the width, which a word of 64 bits cannot be.
-/
import Xklee.Solver.ValueRange

set_option autoImplicit false

namespace Xklee

namespace ValueRange

/-! ## The operations that know nothing -/

def add (_ _ : ValueRange) (width : ℕ) : Option ValueRange := full width

def sub (_ _ : ValueRange) (width : ℕ) : Option ValueRange := full width

def mul (_ _ : ValueRange) (width : ℕ) : Option ValueRange := full width

def udiv (_ _ : ValueRange) (width : ℕ) : Option ValueRange := full width

def sdiv (_ _ : ValueRange) (width : ℕ) : Option ValueRange := full width

def urem (_ _ : ValueRange) (width : ℕ) : Option ValueRange := full width

def srem (_ _ : ValueRange) (width : ℕ) : Option ValueRange := full width

/-! ## What is asked of the operations -/

/-- The operation returns a range with this number. -/
def Gives (result : Option ValueRange) (n : ℕ) : Prop := ∃ s, result = some s ∧ s.Contains n

/-- The least range with the members of two. -/
structure IsLeastUnion (s r b : ValueRange) : Prop where
  left : ∀ n, r.Contains n → s.Contains n
  right : ∀ n, b.Contains n → s.Contains n
  least : ∀ t : ValueRange, (∀ n, r.Contains n → t.Contains n) →
    (∀ n, b.Contains n → t.Contains n) → ∀ n, s.Contains n → t.Contains n

/-- The bitwise operations on two members. -/
structure GivesBitwise (r b : ValueRange) (n m : ℕ) : Prop where
  and : Gives (r.binaryAnd b) (n &&& m)
  or : Gives (r.binaryOr b) (n ||| m)
  xor : Gives (r.binaryXor b) (n ^^^ m)

/-- The arithmetic operations on two words of a width. -/
structure GivesArithmetic (r b : ValueRange) {width : ℕ} (x y : BitVec width) : Prop where
  add : Gives (r.add b width) (x + y).toNat
  sub : Gives (r.sub b width) (x - y).toNat
  mul : Gives (r.mul b width) (x * y).toNat
  udiv : Gives (r.udiv b width) (x.udiv y).toNat
  sdiv : Gives (r.sdiv b width) (x.sdiv y).toNat
  urem : Gives (r.urem b width) (x.umod y).toNat
  srem : Gives (r.srem b width) (x.srem y).toNat

/-- The signed value of a word lies between the two bounds. -/
def BoundsSigned (r : ValueRange) {width : ℕ} (x : BitVec width) : Prop :=
  ∃ low high, r.minSigned width = some low ∧ r.maxSigned width = some high
    ∧ low.toInt ≤ x.toInt ∧ x.toInt ≤ high.toInt

/-- The operations on two ranges, for a width, a number of bits to shift by, and a part of
some bits. -/
structure Abstracts (r b : ValueRange) (width bits lowBit count : ℕ) : Prop where
  union : IsLeastUnion (r.set_union b) r b
  identity_left : r.isEmpty = true → ∀ n, (r.set_union b).Contains n ↔ b.Contains n
  identity_right : b.isEmpty = true → ∀ n, (r.set_union b).Contains n ↔ r.Contains n
  intersection : ∀ n, (r.set_intersection b).Contains n ↔ r.Contains n ∧ b.Contains n
  difference : (∃ t : ValueRange, ∀ n, t.Contains n ↔ r.Contains n ∧ ¬b.Contains n) →
    ∀ n, (r.set_difference b).Contains n ↔ r.Contains n ∧ ¬b.Contains n
  bitwise : ∀ n m, r.Contains n → b.Contains m → GivesBitwise r b n m
  arithmetic : ∀ x y : BitVec width, r.Contains x.toNat → b.Contains y.toNat →
    GivesArithmetic r b x y
  shiftLeft : ∀ n, r.Contains n → Gives (r.binaryShiftLeft bits) (n * 2 ^ bits)
  shiftRight : ∀ n, r.Contains n → Gives (r.binaryShiftRight bits) (n / 2 ^ bits)
  concat : ∀ n m, r.Contains n → b.Contains m → m < 2 ^ bits →
    Gives (r.concat b bits) (n * 2 ^ bits + m)
  extract : ∀ n, r.Contains n →
    Gives (r.extract lowBit (lowBit + count)) (n / 2 ^ lowBit % 2 ^ count)
  signed : ∀ x : BitVec width, r.Contains x.toNat → BoundsSigned r x

/-- The ends of an empty range do not widen a union. -/
structure UnionApplies (r b : ValueRange) : Prop where
  both : r.isEmpty = true → b.isEmpty = true → r.m_max < b.m_min ∧ b.m_max < r.m_min
  left : r.isEmpty = true → b.isEmpty = false → b.m_min ≤ r.m_min ∧ r.m_max ≤ b.m_max
  right : r.isEmpty = false → b.isEmpty = true → r.m_min ≤ b.m_min ∧ b.m_max ≤ r.m_max

/-- The condition for `Abstracts`. Apart from unions, it is about what fits into a word. -/
structure Applies (r b : ValueRange) (width bits lowBit count : ℕ) : Prop where
  union : UnionApplies r b
  shift : r.isEmpty = false → bits < 64 ∧ r.m_max.toNat * 2 ^ bits < 2 ^ 64
  extract : r.isEmpty = false → lowBit < 64 ∧ count ≤ 64
  signed : r.isEmpty = false → r.m_min.toNat < 2 ^ width → width < 64 ∧ r.Within width

section Operations

variable {r b : ValueRange} {n m width bits lowBit count : ℕ}

theorem isEmpty_eq_false_iff : r.isEmpty = false ↔ r.m_min.toNat ≤ r.m_max.toNat := by
  rw [← Bool.not_eq_true, isEmpty_iff]
  omega

theorem not_contains (h : r.isEmpty = true) : ¬r.Contains n := by
  intro hn
  rw [hn.not_isEmpty] at h
  exact absurd h (by decide)

theorem contains_max (h : r.isEmpty = false) : r.Contains r.m_max.toNat :=
  ⟨isEmpty_eq_false_iff.mp h, le_rfl⟩

/-! ## Unions, intersections and differences -/

theorem contains_set_union : (r.set_union b).Contains n
    ↔ min r.m_min.toNat b.m_min.toNat ≤ n ∧ n ≤ max r.m_max.toNat b.m_max.toNat := by
  unfold Contains set_union
  rw [toNat_stdMin, toNat_stdMax]

theorem contains_set_intersection :
    (r.set_intersection b).Contains n ↔ r.Contains n ∧ b.Contains n := by
  unfold Contains set_intersection
  rw [toNat_stdMin, toNat_stdMax]
  omega

/-- The least range of a union is the range of the other operand if one is empty. -/
theorem IsLeastUnion.contains_iff_right {s : ValueRange} (h : IsLeastUnion s r b)
    (hr : r.isEmpty = true) : s.Contains n ↔ b.Contains n := by
  constructor
  · exact h.least b (fun k hk => absurd hk (not_contains hr)) (fun _ hk => hk) n
  · exact h.right n

theorem IsLeastUnion.symm {s : ValueRange} (h : IsLeastUnion s r b) : IsLeastUnion s b r :=
  ⟨h.right, h.left, fun t hb hr => h.least t hr hb⟩

/-- With members on both sides, the two ends come from members. -/
theorem isLeastUnion_of_applies (h : UnionApplies r b) : IsLeastUnion (r.set_union b) r b := by
  refine ⟨fun n hn => hn.set_union_left b, fun n hn => hn.set_union_right r, ?_⟩
  intro t hr hb n hn
  rw [contains_set_union] at hn
  have hboth := h.both
  have hleft := h.left
  have hright := h.right
  rw [BitVec.lt_def, BitVec.lt_def] at hboth
  rw [BitVec.le_def, BitVec.le_def] at hleft hright
  cases hre : r.isEmpty with
  | true =>
    cases hbe : b.isEmpty with
    | true =>
      have := hboth hre hbe
      rw [isEmpty_iff] at hre hbe
      omega
    | false =>
      have := hleft hre hbe
      rw [isEmpty_iff] at hre
      apply hb n
      unfold Contains
      omega
  | false =>
    cases hbe : b.isEmpty with
    | true =>
      have := hright hre hbe
      rw [isEmpty_iff] at hbe
      apply hr n
      unfold Contains
      omega
    | false =>
      have hrmin := hr _ (exists_contains hre)
      have hrmax := hr _ (contains_max hre)
      have hbmin := hb _ (exists_contains hbe)
      have hbmax := hb _ (contains_max hbe)
      unfold Contains at hrmin hrmax hbmin hbmax ⊢
      omega

/-- An empty range as an operand: the ends of the union are members of the other one. -/
theorem ends_of_isLeastUnion (h : IsLeastUnion (r.set_union b) r b) (hr : r.isEmpty = true)
    (hb : b.isEmpty = false) : b.m_min ≤ r.m_min ∧ r.m_max ≤ b.m_max := by
  have hin := h.right _ (exists_contains hb)
  rw [contains_set_union] at hin
  have hmin : b.Contains (min r.m_min.toNat b.m_min.toNat) := by
    apply (h.contains_iff_right hr).mp
    rw [contains_set_union]
    omega
  have hmax : b.Contains (max r.m_max.toNat b.m_max.toNat) := by
    apply (h.contains_iff_right hr).mp
    rw [contains_set_union]
    omega
  rw [BitVec.le_def, BitVec.le_def]
  unfold Contains at hmin hmax
  omega

theorem set_union_comm (r b : ValueRange) (n : ℕ) :
    (r.set_union b).Contains n ↔ (b.set_union r).Contains n := by
  rw [contains_set_union, contains_set_union, min_comm, max_comm]

theorem isLeastUnion_iff : IsLeastUnion (r.set_union b) r b ↔ UnionApplies r b := by
  refine ⟨fun h => ⟨fun hr hb => ?_, ends_of_isLeastUnion h, fun hr hb => ?_⟩,
    isLeastUnion_of_applies⟩
  · -- two empty ranges: their union has no member, either
    have hnone : ¬(r.set_union b).Contains (min r.m_min.toNat b.m_min.toNat) := by
      rw [h.contains_iff_right hr]
      exact not_contains hb
    rw [contains_set_union] at hnone
    rw [BitVec.lt_def, BitVec.lt_def]
    rw [isEmpty_iff] at hr hb
    omega
  · refine ends_of_isLeastUnion ⟨?_, ?_, ?_⟩ hb hr
    · exact fun n hn => hn.set_union_left r
    · exact fun n hn => hn.set_union_right b
    · intro t htb htr n hn
      exact h.least t htr htb n ((set_union_comm b r n).mp hn)

/-- The difference leaves out what it has to, and has the rest if that is a range. -/
theorem contains_set_difference
    (h : ∃ t : ValueRange, ∀ n, t.Contains n ↔ r.Contains n ∧ ¬b.Contains n) :
    (r.set_difference b).Contains n ↔ r.Contains n ∧ ¬b.Contains n := by
  obtain ⟨t, ht⟩ := h
  have hmax := r.m_max.isLt
  unfold set_difference
  simp only [isEmpty_iff, BitVec.lt_def, BitVec.le_def]
  split
  next hout =>
    unfold Contains
    omega
  next hout =>
    split
    next hall =>
      show 1 ≤ n ∧ n ≤ 0 ↔ r.Contains n ∧ ¬b.Contains n
      unfold Contains
      omega
    next hall =>
      split
      next hlow =>
        -- the lower part is taken out, up to a number below the greatest member
        have hnext : (b.m_max + 1).toNat = b.m_max.toNat + 1 := by
          rw [BitVec.toNat_add]
          show (b.m_max.toNat + 1) % 2 ^ 64 = _
          exact Nat.mod_eq_of_lt (by omega)
        show (b.m_max + 1).toNat ≤ n ∧ n ≤ r.m_max.toNat ↔ r.Contains n ∧ ¬b.Contains n
        unfold Contains
        rw [hnext]
        omega
      next hlow =>
        have hprevious : (b.m_min - 1).toNat = b.m_min.toNat - 1 := by
          rw [BitVec.toNat_sub_of_le]
          · rfl
          · rw [BitVec.le_def]
            show 1 ≤ b.m_min.toNat
            omega
        rw [ite_self]
        -- what is left has no second part above the one taken out
        have hends : r.m_max.toNat ≤ b.m_max.toNat := by
          have hmin' := ht r.m_min.toNat
          have hmax' := ht r.m_max.toNat
          have hgap := ht b.m_min.toNat
          unfold Contains at hmin' hmax' hgap
          omega
        show r.m_min.toNat ≤ n ∧ n ≤ (b.m_min - 1).toNat ↔ r.Contains n ∧ ¬b.Contains n
        unfold Contains
        rw [hprevious]
        omega

/-! ## Bits -/

theorem givesBitwise (h : r.Contains n) (hb : b.Contains m) : GivesBitwise r b n m := by
  refine ⟨exists_binaryAnd h hb, exists_binaryOr h hb, ?_⟩
  have hword : r.Within 64 := r.m_max.isLt
  have hword' : b.Within 64 := b.m_max.isLt
  obtain ⟨s, heq, hs, -⟩ := exists_binaryXor h hb hword hword'
  exact ⟨s, heq, hs⟩

theorem givesArithmetic (hwidth : width ≤ 64) (x y : BitVec width) : GivesArithmetic r b x y := by
  obtain ⟨s, heq, -, hall⟩ := exists_full hwidth
  have hgives : ∀ z : BitVec width, Gives (full width) z.toNat :=
    fun z => ⟨s, heq, hall _ z.isLt⟩
  exact ⟨hgives _, hgives _, hgives _, hgives _, hgives _, hgives _, hgives _⟩

theorem toNat_shiftLeft_of_lt {x : BitVec 64} (h : x.toNat * 2 ^ bits < 2 ^ 64) :
    (x <<< bits).toNat = x.toNat * 2 ^ bits := by
  rw [BitVec.toNat_shiftLeft, Nat.shiftLeft_eq]
  exact Nat.mod_eq_of_lt h

/-- A range whose upper end keeps its bits when it is shifted. -/
theorem gives_shiftLeft (hbits : bits < 64) (hfits : r.m_max.toNat * 2 ^ bits < 2 ^ 64)
    (h : r.Contains n) : Gives (r.binaryShiftLeft bits) (n * 2 ^ bits) := by
  have hmin : r.m_min.toNat * 2 ^ bits ≤ n * 2 ^ bits := Nat.mul_le_mul_right _ h.1
  have hmax : n * 2 ^ bits ≤ r.m_max.toNat * 2 ^ bits := Nat.mul_le_mul_right _ h.2
  refine ⟨⟨r.m_min <<< bits, r.m_max <<< bits⟩, if_pos hbits, ?_⟩
  unfold Contains
  rw [toNat_shiftLeft_of_lt hfits, toNat_shiftLeft_of_lt (by omega)]
  exact ⟨hmin, hmax⟩

theorem shift_of_gives (hr : r.isEmpty = false)
    (h : ∀ n, r.Contains n → Gives (r.binaryShiftLeft bits) (n * 2 ^ bits)) :
    bits < 64 ∧ r.m_max.toNat * 2 ^ bits < 2 ^ 64 := by
  obtain ⟨s, heq, hs⟩ := h _ (contains_max hr)
  refine ⟨?_, hs.lt⟩
  by_contra hbits
  rw [binaryShiftLeft, if_neg hbits] at heq
  cases heq

theorem gives_shiftRight (hbits : bits < 64) (h : r.Contains n) :
    Gives (r.binaryShiftRight bits) (n / 2 ^ bits) := by
  refine ⟨⟨r.m_min >>> bits, r.m_max >>> bits⟩, if_pos hbits, ?_⟩
  unfold Contains
  rw [BitVec.toNat_ushiftRight, BitVec.toNat_ushiftRight, Nat.shiftRight_eq_div_pow,
    Nat.shiftRight_eq_div_pow]
  exact ⟨Nat.div_le_div_right h.1, Nat.div_le_div_right h.2⟩

theorem gives_concat (hbits : bits < 64) (hfits : r.m_max.toNat * 2 ^ bits < 2 ^ 64)
    (h : r.Contains n) (hb : b.Contains m) (hm : m < 2 ^ bits) :
    Gives (r.concat b bits) (n * 2 ^ bits + m) := by
  obtain ⟨s, heq, hs⟩ := gives_shiftLeft hbits hfits h
  obtain ⟨t, heq', ht⟩ := exists_binaryOr hs hb
  have hor : n * 2 ^ bits ||| m = n * 2 ^ bits + m := by
    rw [← Nat.shiftLeft_eq, Nat.shiftLeft_add_eq_or_of_lt hm]
  refine ⟨t, ?_, hor ▸ ht⟩
  rw [concat, heq]
  exact heq'

theorem gives_extract (hlow : lowBit < 64) (hcount : count ≤ 64) (h : r.Contains n) :
    Gives (r.extract lowBit (lowBit + count)) (n / 2 ^ lowBit % 2 ^ count) := by
  have hwidth : lowBit + count - lowBit = count := Nat.add_sub_cancel_left ..
  have hpart := @exists_extract r n h lowBit (lowBit + count) hlow (by omega)
  rw [hwidth] at hpart
  exact hpart

theorem extract_of_gives (h : Gives (r.extract lowBit (lowBit + count)) n) :
    lowBit < 64 ∧ count ≤ 64 := by
  obtain ⟨s, heq, -⟩ := h
  unfold ValueRange.extract binaryShiftRight maxValueOfNBits at heq
  rw [Nat.add_sub_cancel_left] at heq
  constructor
  · by_contra hlow
    rw [if_neg hlow] at heq
    cases heq
  · by_contra hcount
    rw [if_neg hcount] at heq
    split at heq
    · cases heq
    · cases heq

/-! ## Signed values -/

theorem boundsSigned (hpos : 0 < width) (hwidth : width < 64) (hr : r.Within width)
    (x : BitVec width) (h : r.Contains x.toNat) : BoundsSigned r x := by
  obtain ⟨low, hlow, hle⟩ := exists_minSigned h hpos hwidth hr
  obtain ⟨high, hhigh, hge⟩ := exists_maxSigned h hpos hwidth hr
  refine ⟨low, high, hlow, hhigh, ?_, ?_⟩
  · rw [toInt_eq_signedValue]
    exact hle
  · rw [toInt_eq_signedValue]
    exact hge

/-- A bound exists only if the width is below that of a word and the assertion passes. -/
theorem within_of_boundsSigned {x : BitVec width} (h : BoundsSigned r x) :
    width < 64 ∧ r.Within width := by
  obtain ⟨low, -, hlow, -⟩ := h
  have hcheck : width < 64 ∧ r.m_min >>> width = 0 ∧ r.m_max >>> width = 0 := by
    by_contra hno
    rw [minSigned, checkBits, if_neg hno] at hlow
    cases hlow
  refine ⟨hcheck.1, ?_⟩
  have hzero : r.m_max.toNat / 2 ^ width = 0 := by
    rw [← Nat.shiftRight_eq_div_pow, ← BitVec.toNat_ushiftRight, hcheck.2.2]
    rfl
  have hpos := Nat.two_pow_pos width
  exact (Nat.div_eq_zero_iff_lt hpos).mp hzero

/-! ## All operations -/

/-- The operations abstract those on members if and only if no empty range widens a union, the
results fit into words, and the width for signed values is below 64. -/
theorem abstracts_iff (r b : ValueRange) (width bits lowBit count : ℕ) (hpos : 1 ≤ width)
    (hwidth : width ≤ 64) :
    Abstracts r b width bits lowBit count ↔ Applies r b width bits lowBit count := by
  constructor
  · intro h
    refine ⟨isLeastUnion_iff.mp h.union, fun hr => shift_of_gives hr h.shiftLeft, ?_, ?_⟩
    · intro hr
      exact extract_of_gives (h.extract _ (contains_max hr))
    · -- the least member is a word of the width
      intro hr hmin
      have hvalue : (BitVec.ofNat width r.m_min.toNat).toNat = r.m_min.toNat := by
        rw [BitVec.toNat_ofNat, Nat.mod_eq_of_lt hmin]
      apply within_of_boundsSigned (h.signed (BitVec.ofNat width r.m_min.toNat) ?_)
      rw [hvalue]
      exact exists_contains hr
  · intro h
    have hunion := isLeastUnion_iff.mpr h.union
    exact {
      union := hunion
      identity_left := fun hr _ => hunion.contains_iff_right hr
      identity_right := fun hb _ => hunion.symm.contains_iff_right hb
      intersection := fun _ => contains_set_intersection
      difference := fun ht _ => contains_set_difference ht
      bitwise := fun _ _ hn hm => givesBitwise hn hm
      arithmetic := fun x y _ _ => givesArithmetic hwidth x y
      shiftLeft := fun _ hn =>
        gives_shiftLeft (h.shift hn.not_isEmpty).1 (h.shift hn.not_isEmpty).2 hn
      shiftRight := fun _ hn => gives_shiftRight (h.shift hn.not_isEmpty).1 hn
      concat := fun _ _ hn hm hlt =>
        gives_concat (h.shift hn.not_isEmpty).1 (h.shift hn.not_isEmpty).2 hn hm hlt
      extract := fun _ hn =>
        gives_extract (h.extract hn.not_isEmpty).1 (h.extract hn.not_isEmpty).2 hn
      signed := fun x hx => by
        have hmin : r.m_min.toNat < 2 ^ width := Nat.lt_of_le_of_lt hx.1 x.isLt
        obtain ⟨hlt, hwithin⟩ := h.signed hx.not_isEmpty hmin
        exact boundsSigned hpos hlt hwithin x hx }

/-- Two ranges of bytes, joined to words of 16 bits. -/
theorem abstracts_iff_input : Abstracts ⟨5, 10⟩ ⟨200, 255⟩ 8 8 2 3
    ∧ (Abstracts ⟨5, 10⟩ ⟨200, 255⟩ 8 8 2 3 ↔ Applies ⟨5, 10⟩ ⟨200, 255⟩ 8 8 2 3) := by
  have hiff := abstracts_iff ⟨5, 10⟩ ⟨200, 255⟩ 8 8 2 3 (by decide) (by decide)
  refine ⟨hiff.mpr ⟨⟨?_, ?_, ?_⟩, ?_, ?_, ?_⟩, hiff⟩
  · intro hempty
    exact absurd hempty (by decide)
  · intro hempty
    exact absurd hempty (by decide)
  · intro _ hempty
    exact absurd hempty (by decide)
  · intro _
    decide
  · intro _
    decide
  · intro _ _
    unfold Within
    decide

/-- The range that `evalRead` begins with adds 3 to the union with `[5, 10]`, and a range of
words of 64 bits has no signed bounds. -/
theorem empty_widens_union :
    (¬Abstracts empty ⟨5, 10⟩ 8 0 0 8 ∧ (empty.set_union ⟨5, 10⟩).Contains 3)
      ∧ ¬Abstracts ⟨5, 10⟩ ⟨5, 10⟩ 64 0 0 8 ∧ minSigned ⟨5, 10⟩ 64 = none := by
  refine ⟨⟨?_, by unfold Contains; decide⟩, ?_, rfl⟩
  · intro h
    have hthree := (h.identity_left rfl 3).mp (by unfold Contains; decide)
    exact absurd hthree (by unfold Contains; decide)
  · intro h
    obtain ⟨low, -, hlow, -⟩ := h.signed 7#64 (by unfold Contains; decide)
    cases hlow

end Operations

end ValueRange

end Xklee
