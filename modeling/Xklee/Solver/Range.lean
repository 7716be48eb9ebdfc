/-
The range of an expression: `Solver::getRange` of `lib/Solver/Solver.cpp`.

A binary search finds how many bits of the expression are used, and two more find its least and its
greatest value among the numbers of that many bits. Each of the three asks the solver about an
expression that the constructors build, with the word that is tested as a constant in it. The
searches run on 64-bit words. An assertion fails where the solver does, or where a word does not fit
the width of the expression it is to be a constant of; neither happens with a solver that answers.
-/
import Xklee.Data.BinarySearch
import Xklee.Data.Partial
import Xklee.Solver.ExactSolver
import Xklee.Util.Bits

set_option autoImplicit false

namespace Xklee

/-- `ConstantExpr::create`, which asserts that the value fits the width. -/
def ConstantExpr.create (v : BitVec 64) (w : ℕ) : Option Expr := do
  guard (v = bits64.truncateToNBits v w)
  return ConstantExpr.alloc v.toNat w

namespace Solver

/-! ## The search -/

section GetRange

variable (impl : SolverImpl)

/-- `Solver::mustBeFalse`. -/
def mustBeFalse (query : Query) : Option Bool := mustBeTrue impl query.negateExpr

/-- `Solver::mayBeTrue`. -/
def mayBeTrue (query : Query) : Option Bool := (mustBeFalse impl query).map (!·)

/-- The binary search for the number of useful bits. -/
def usefulBits (query : Query) : Option (BitVec 64) :=
  let e := query.expr
  let width := e.width
  BinarySearch.bisect (fun mid => do
      let shift ← ConstantExpr.create mid width
      let zero ← ConstantExpr.create 0 width
      mustBeTrue impl (query.withExpr (EqExpr.create (LShrExpr.create e shift) zero)))
    0 (BitVec.ofNat 64 width)

/-- The least value: 0 if it can be, the common case, or what a binary search finds. -/
def leastValue (query : Query) (bits : BitVec 64) : Option (BitVec 64) := do
  let e := query.expr
  let width := e.width
  let zero ← ConstantExpr.create 0 width
  let res ← mayBeTrue impl (query.withExpr (EqExpr.create e zero))
  if res then return 0
  else
    BinarySearch.bisect (fun mid => do
        let bound ← ConstantExpr.create mid width
        mayBeTrue impl (query.withExpr (UleExpr.create e bound)))
      0 (bits64.maxValueOfNBits bits.toNat)

/-- The binary search for the greatest value, from the least one up. -/
def greatestValue (query : Query) (bits min : BitVec 64) : Option (BitVec 64) :=
  let e := query.expr
  let width := e.width
  BinarySearch.bisect (fun mid => do
      let bound ← ConstantExpr.create mid width
      mustBeTrue impl (query.withExpr (UleExpr.create e bound)))
    min (bits64.maxValueOfNBits bits.toNat)

/-- The numbers `min` and `max` of `Solver::getRange`. -/
def rangeBounds (query : Query) : Option (BitVec 64 × BitVec 64) :=
  if query.expr.width = 1 then do
    match ← evaluate impl query with
    | .True => return (1, 1)
    | .False => return (0, 0)
    | .Unknown => return (0, 1)
  else
    match query.expr with
    | .Constant CE => return (BitVec.ofNat 64 CE.toNat, BitVec.ofNat 64 CE.toNat)
    | _ => do
        let bits ← usefulBits impl query
        let min ← leastValue impl query bits
        let max ← greatestValue impl query bits min
        return (min, max)

/-- `Solver::getRange`. -/
def getRange (query : Query) : Option (Expr × Expr) := do
  let (min, max) ← rangeBounds impl query
  let min ← ConstantExpr.create min query.expr.width
  let max ← ConstantExpr.create max query.expr.width
  return (min, max)

end GetRange

end Solver

/-! ## The values of an expression -/

/-- The unsigned values of the expression of a query, over all solutions of its constraints. -/
def Query.values (q : Query) : Set ℕ :=
  {n | ∃ σ, Satisfies σ q.constraints ∧ (q.expr.eval σ).toNat = n}

theorem ConstantExpr.create_eq {v : BitVec 64} {w : ℕ} (hw : w ≤ 64) (hv : v.toNat < 2 ^ w) :
    ConstantExpr.create v w = some (ConstantExpr.alloc v.toNat w) := by
  have hfits : v = bits64.truncateToNBits v w := by
    apply BitVec.eq_of_toNat_eq
    rw [toNat_truncateToNBits v hw, Nat.mod_eq_of_lt hv]
  unfold ConstantExpr.create
  rw [Partial.guard_bind hfits]
  rfl

namespace Solver

/-- What is asked of the solver and of the query: the answers are right, and there are answers; the
constraints have a solution, and the expression has at most 64 bits. -/
structure CanRange (impl : SolverImpl) (q : Query) : Prop where
  correct : impl.Correct
  answers : impl.Answers
  consistent : q.Consistent
  wellTyped : q.expr.WellTyped
  width_le : q.expr.width ≤ 64

section Sound

variable {impl : SolverImpl} {q : Query}

variable {e : Expr} {n : ℕ} {bits : BitVec 64}

theorem CanRange.mustBeTrue (h : CanRange impl q) (he : e.IsBool) :
    ∃ b, Solver.mustBeTrue impl (q.withExpr e) = some b
      ∧ (b = true ↔ ∀ σ, Satisfies σ q.constraints → e.Holds σ) := by
  have hok : (q.withExpr e).Ok := ⟨h.consistent, he⟩
  unfold Solver.mustBeTrue
  split
  next CE hCE =>
    have hCE' : e = .Constant CE := hCE
    subst hCE'
    obtain ⟨σ, hσ⟩ := h.consistent
    exact ⟨_, rfl, fun ht _ _ => ht, fun hall => hall σ hσ⟩
  next =>
    obtain ⟨b, hb⟩ := Option.ne_none_iff_exists'.mp (h.answers.truth _ hok)
    exact ⟨b, hb, h.correct.truth _ b hok hb⟩

theorem CanRange.mayBeTrue (h : CanRange impl q) (he : e.IsBool) :
    ∃ b, Solver.mayBeTrue impl (q.withExpr e) = some b
      ∧ (b = true ↔ ∃ σ, Satisfies σ q.constraints ∧ e.Holds σ) := by
  obtain ⟨b, hb, hiff⟩ := h.mustBeTrue he.createIsZero
  refine ⟨!b, ?_, ?_⟩
  · have hfalse : Solver.mustBeFalse impl (q.withExpr e) = some b := hb
    rw [Solver.mayBeTrue, hfalse]
    rfl
  · rw [Bool.not_eq_true', ← Bool.not_eq_true, hiff]
    push Not
    exact exists_congr fun σ => and_congr_right fun _ => by rw [he.holds_createIsZero, not_not]

/-- The values fit the width. -/
theorem CanRange.values_lt (h : CanRange impl q) (hn : n ∈ q.values) :
    n < 2 ^ q.expr.width := by
  obtain ⟨σ, -, rfl⟩ := hn
  rw [← h.wellTyped.eval_width (σ := σ)]
  exact (q.expr.eval σ).bits.isLt

theorem CanRange.values_lt_word (h : CanRange impl q) (hn : n ∈ q.values) : n < 2 ^ 64 :=
  Nat.lt_of_lt_of_le (h.values_lt hn) (Nat.pow_le_pow_right (by decide) h.width_le)

/-! ### The questions -/

/-- An expression that says something about the value of another. -/
theorem means_of_denotes {e' : Expr} (he : e.WellTyped) {p : BitVec e.width → Bool}
    (h : ∀ σ x, Denotes σ e x → Denotes σ e' (BitVec.ofBool (p x))) {P : ℕ → Prop}
    (hP : ∀ x, p x = true ↔ P x.toNat) :
    e'.IsBool ∧ ∀ σ, e'.Holds σ ↔ P (e.eval σ).toNat := by
  obtain ⟨x₀, hx₀⟩ := he.denotes (σ := fun _ _ => 0) rfl
  have hbool := h _ x₀ hx₀
  refine ⟨⟨hbool.1, hbool.width_eq⟩, fun σ => ?_⟩
  obtain ⟨x, hx⟩ := he.denotes (σ := σ) rfl
  rw [(h σ x hx).holds_iff, hP, hx.2]
  rfl

/-- After a shift the expression is 0 when its value has no more bits than that. -/
theorem shift_means (he : e.WellTyped) (hn : n < e.width) :
    (EqExpr.create (LShrExpr.create e (ConstantExpr.alloc n e.width))
        (ConstantExpr.alloc 0 e.width)).IsBool
      ∧ ∀ σ, (EqExpr.create (LShrExpr.create e (ConstantExpr.alloc n e.width))
        (ConstantExpr.alloc 0 e.width)).Holds σ ↔ (e.eval σ).toNat < 2 ^ n := by
  have hpow : n < 2 ^ e.width := Nat.lt_trans hn Nat.lt_two_pow_self
  refine means_of_denotes he (P := fun m => m < 2 ^ n)
    (p := fun x => x >>> BitVec.ofNat e.width n == BitVec.ofNat e.width 0) ?_ ?_
  · intro σ x hx
    have hshift := BinaryKind.create_denotes .LShr hx (denotes_alloc (v := n) hx.width_pos)
    exact EqExpr.create_denotes hshift (denotes_alloc hx.width_pos)
  · intro x
    have hval : (x >>> BitVec.ofNat e.width n).toNat = x.toNat / 2 ^ n := by
      rw [BitVec.ushiftRight_eq', BitVec.toNat_ushiftRight, BitVec.toNat_ofNat,
        Nat.mod_eq_of_lt hpow, Nat.shiftRight_eq_div_pow]
    rw [beq_iff_eq, ← BitVec.toNat_inj, hval, BitVec.toNat_ofNat, Nat.zero_mod]
    exact Nat.div_eq_zero_iff_lt (Nat.two_pow_pos n)

theorem ule_means (he : e.WellTyped) (hn : n < 2 ^ e.width) :
    (UleExpr.create e (ConstantExpr.alloc n e.width)).IsBool
      ∧ ∀ σ, (UleExpr.create e (ConstantExpr.alloc n e.width)).Holds σ
        ↔ (e.eval σ).toNat ≤ n := by
  refine means_of_denotes he (P := fun m => m ≤ n)
    (p := fun x => x.ule (BitVec.ofNat e.width n)) ?_ ?_
  · intro σ x hx
    exact UleExpr.create_denotes hx (denotes_alloc hx.width_pos)
  · intro x
    rw [BitVec.ule_iff_toNat_le, BitVec.toNat_ofNat, Nat.mod_eq_of_lt hn]

theorem eqZero_means (he : e.WellTyped) :
    (EqExpr.create e (ConstantExpr.alloc 0 e.width)).IsBool
      ∧ ∀ σ, (EqExpr.create e (ConstantExpr.alloc 0 e.width)).Holds σ
        ↔ (e.eval σ).toNat = 0 := by
  refine means_of_denotes he (P := fun m => m = 0) (p := fun x => x == BitVec.ofNat e.width 0) ?_ ?_
  · intro σ x hx
    exact EqExpr.create_denotes hx (denotes_alloc hx.width_pos)
  · intro x
    rw [beq_iff_eq, ← BitVec.toNat_inj, BitVec.toNat_ofNat, Nat.zero_mod]

/-! ### The searches -/

/-- All values have the bits that were found to be useful. -/
theorem CanRange.usefulBits_spec (h : CanRange impl q) :
    ∃ bits, usefulBits impl q = some bits ∧ bits.toNat ≤ q.expr.width
      ∧ ∀ n ∈ q.values, n < 2 ^ bits.toNat := by
  have hle := h.width_le
  have hwidth : (BitVec.ofNat 64 q.expr.width).toNat = q.expr.width := by
    rw [BitVec.toNat_ofNat, Nat.mod_eq_of_lt (by omega)]
  have hzero : ConstantExpr.create 0 q.expr.width = some (ConstantExpr.alloc 0 q.expr.width) :=
    ConstantExpr.create_eq hle (Nat.two_pow_pos _)
  let P : BitVec 64 → Prop := fun bits => ∀ n ∈ q.values, n < 2 ^ bits.toNat
  have hdecides : BinarySearch.Decides (fun mid => do
      let shift ← ConstantExpr.create mid q.expr.width
      let zero ← ConstantExpr.create 0 q.expr.width
      Solver.mustBeTrue impl (q.withExpr (EqExpr.create (LShrExpr.create q.expr shift) zero)))
      P 0 (BitVec.ofNat 64 q.expr.width) := by
    refine ⟨fun mid _ hmid => ?_, fun x y _ hxy _ hx n hn => ?_, fun n hn => ?_⟩
    · have hlt : mid.toNat < q.expr.width := by
        rw [← hwidth]
        exact hmid
      have hshift := ConstantExpr.create_eq hle (Nat.lt_trans hlt Nat.lt_two_pow_self)
      obtain ⟨hbool, hmeans⟩ := shift_means h.wellTyped hlt
      obtain ⟨b, hb, hiff⟩ := h.mustBeTrue hbool
      refine ⟨b, ?_, hiff.trans ?_⟩
      · rw [hshift, hzero]
        exact hb
      · constructor
        · rintro hall n ⟨σ, hσ, rfl⟩
          exact (hmeans σ).mp (hall σ hσ)
        · intro hall σ hσ
          exact (hmeans σ).mpr (hall _ ⟨σ, hσ, rfl⟩)
    · exact Nat.lt_of_lt_of_le (hx n hn) (Nat.pow_le_pow_right (by decide) hxy)
    · rw [hwidth]
      exact h.values_lt hn
  obtain ⟨bits, hbits, hhi, ⟨-, hall⟩, -⟩ := BinarySearch.bisect_isLeast (Nat.zero_le _) hdecides
  refine ⟨bits, hbits, ?_, hall⟩
  rw [← hwidth]
  exact hhi

/-- What may be asked about a bound between 0 and the greatest number of some bits. -/
theorem CanRange.bound_lt (h : CanRange impl q) (hbits : bits.toNat ≤ q.expr.width) :
    (bits64.maxValueOfNBits bits.toNat).toNat = 2 ^ bits.toNat - 1
      ∧ ∀ mid : BitVec 64, mid.toNat ≤ (bits64.maxValueOfNBits bits.toNat).toNat →
        mid.toNat < 2 ^ q.expr.width := by
  have hle := h.width_le
  have hmax := toNat_maxValueOfNBits (show bits.toNat ≤ 64 by omega)
  refine ⟨hmax, fun mid hmid => ?_⟩
  have hpow : 2 ^ bits.toNat ≤ 2 ^ q.expr.width := Nat.pow_le_pow_right (by decide) hbits
  have hpos : 0 < 2 ^ bits.toNat := Nat.two_pow_pos _
  omega

theorem CanRange.leastValue_spec (h : CanRange impl q) (hbits : bits.toNat ≤ q.expr.width)
    (hvalues : ∀ n ∈ q.values, n < 2 ^ bits.toNat) :
    ∃ min, leastValue impl q bits = some min ∧ IsLeast q.values min.toNat := by
  have hle := h.width_le
  obtain ⟨hmax, hfits⟩ := h.bound_lt hbits
  have hzero : ConstantExpr.create 0 q.expr.width = some (ConstantExpr.alloc 0 q.expr.width) :=
    ConstantExpr.create_eq hle (Nat.two_pow_pos _)
  obtain ⟨hbool, hmeans⟩ := eqZero_means h.wellTyped
  obtain ⟨b, hb, hiff⟩ := h.mayBeTrue hbool
  have hrun : leastValue impl q bits = if b then some 0 else
      BinarySearch.bisect (fun mid => do
        let bound ← ConstantExpr.create mid q.expr.width
        Solver.mayBeTrue impl (q.withExpr (UleExpr.create q.expr bound)))
        0 (bits64.maxValueOfNBits bits.toNat) := by
    unfold leastValue
    dsimp only
    rw [hzero, Option.bind_eq_bind, Option.bind_some, hb]
    rfl
  cases b with
  | true =>
    -- the common case
    obtain ⟨σ, hσ, hholds⟩ := hiff.mp rfl
    exact ⟨0, hrun, ⟨σ, hσ, (hmeans σ).mp hholds⟩, fun n _ => Nat.zero_le n⟩
  | false =>
    let P : BitVec 64 → Prop := fun bound => ∃ n ∈ q.values, n ≤ bound.toNat
    have hdecides : BinarySearch.Decides (fun mid => do
        let bound ← ConstantExpr.create mid q.expr.width
        Solver.mayBeTrue impl (q.withExpr (UleExpr.create q.expr bound)))
        P 0 (bits64.maxValueOfNBits bits.toNat) := by
      refine ⟨fun mid _ hmid => ?_, fun x y _ hxy _ ⟨n, hn, hx⟩ => ⟨n, hn, hx.trans hxy⟩, ?_⟩
      · have hlt := hfits mid (Nat.le_of_lt hmid)
        obtain ⟨hbool, hmeans⟩ := ule_means h.wellTyped hlt
        obtain ⟨b, hb, hiff⟩ := h.mayBeTrue hbool
        refine ⟨b, ?_, hiff.trans ?_⟩
        · rw [ConstantExpr.create_eq hle hlt]
          exact hb
        · constructor
          · rintro ⟨σ, hσ, hholds⟩
            exact ⟨_, ⟨σ, hσ, rfl⟩, (hmeans σ).mp hholds⟩
          · rintro ⟨_, ⟨σ, hσ, rfl⟩, hn⟩
            exact ⟨σ, hσ, (hmeans σ).mpr hn⟩
      · obtain ⟨σ, hσ⟩ := h.consistent
        have hlt := hvalues _ ⟨σ, hσ, rfl⟩
        refine ⟨_, ⟨σ, hσ, rfl⟩, ?_⟩
        omega
    obtain ⟨min, hmin, -, ⟨-, n, hn, hnmin⟩, hleast⟩ :=
      BinarySearch.bisect_isLeast (Nat.zero_le _) hdecides
    have hlower : min.toNat ∈ lowerBounds q.values := by
      intro m hm
      have hm64 := h.values_lt_word hm
      have hle : min ≤ BitVec.ofNat 64 m := by
        apply hleast
        refine ⟨Nat.zero_le _, m, hm, ?_⟩
        rw [BitVec.toNat_ofNat, Nat.mod_eq_of_lt hm64]
      rw [BitVec.le_def, BitVec.toNat_ofNat, Nat.mod_eq_of_lt hm64] at hle
      exact hle
    refine ⟨min, hrun.trans hmin, ?_, hlower⟩
    rwa [← Nat.le_antisymm hnmin (hlower hn)]

theorem CanRange.greatestValue_spec (h : CanRange impl q) {min : BitVec 64}
    (hbits : bits.toNat ≤ q.expr.width) (hvalues : ∀ n ∈ q.values, n < 2 ^ bits.toNat)
    (hmin : IsLeast q.values min.toNat) :
    ∃ max, greatestValue impl q bits min = some max ∧ IsGreatest q.values max.toNat := by
  have hle := h.width_le
  obtain ⟨hmax, hfits⟩ := h.bound_lt hbits
  let P : BitVec 64 → Prop := fun bound => ∀ n ∈ q.values, n ≤ bound.toNat
  have hdecides : BinarySearch.Decides (fun mid => do
      let bound ← ConstantExpr.create mid q.expr.width
      Solver.mustBeTrue impl (q.withExpr (UleExpr.create q.expr bound)))
      P min (bits64.maxValueOfNBits bits.toNat) := by
    refine ⟨fun mid _ hmid => ?_, fun x y _ hxy _ hx n hn => (hx n hn).trans hxy, fun n hn => ?_⟩
    · have hlt := hfits mid (Nat.le_of_lt hmid)
      obtain ⟨hbool, hmeans⟩ := ule_means h.wellTyped hlt
      obtain ⟨b, hb, hiff⟩ := h.mustBeTrue hbool
      refine ⟨b, ?_, hiff.trans ?_⟩
      · rw [ConstantExpr.create_eq hle hlt]
        exact hb
      · constructor
        · rintro hall n ⟨σ, hσ, rfl⟩
          exact (hmeans σ).mp (hall σ hσ)
        · intro hall σ hσ
          exact (hmeans σ).mpr (hall _ ⟨σ, hσ, rfl⟩)
    · have hlt := hvalues n hn
      omega
  have hminmax : min ≤ bits64.maxValueOfNBits bits.toNat := by
    have hlt := hvalues _ hmin.1
    rw [BitVec.le_def]
    omega
  obtain ⟨max, hfound, -, ⟨-, hupper⟩, hleast⟩ := BinarySearch.bisect_isLeast hminmax hdecides
  -- a value as great as the bound that was found
  have hattained : ∃ n ∈ q.values, max.toNat ≤ n := by
    by_contra hnone
    push Not at hnone
    have hpos : min.toNat < max.toNat := hnone _ hmin.1
    have hpred : (max - 1).toNat = max.toNat - 1 := BitVec.toNat_sub_of_le (by
      rw [BitVec.le_def]
      exact Nat.one_le_of_lt hpos)
    have hle' : max ≤ max - 1 := by
      apply hleast
      refine ⟨?_, fun n hn => ?_⟩
      · rw [BitVec.le_def, hpred]
        omega
      · have hlt := hnone n hn
        rw [hpred]
        omega
    rw [BitVec.le_def, hpred] at hle'
    omega
  obtain ⟨n, hn, hnmax⟩ := hattained
  refine ⟨max, hfound, ?_, hupper⟩
  rwa [Nat.le_antisymm hnmax (hupper n hn)]

/-! ### The range -/

theorem CanRange.evaluate (h : CanRange impl q) (he : q.expr.IsBool) :
    ∃ v, Solver.evaluate impl q = some v ∧ q.HasValidity v := by
  have hok : q.Ok := ⟨h.consistent, he⟩
  unfold Solver.evaluate
  split
  next CE hCE =>
    refine ⟨_, rfl, ?_⟩
    have hv : (⟨q.constraints, .Constant CE⟩ : Query).HasValidity
        (if CE.isTrue then .True else .False) := TimingSolver.hasValidity_Constant CE
    rwa [← hCE] at hv
  next =>
    obtain ⟨v, hv⟩ := Option.ne_none_iff_exists'.mp (h.answers.validity _ hok)
    exact ⟨v, hv, h.correct.validity _ v hok hv⟩

/-- The value of a Boolean. -/
theorem toNat_of_isBool (he : e.IsBool) (σ : Env) :
    (e.eval σ).toNat = if e.Holds σ then 1 else 0 := by
  rw [(he.denotes σ).2]
  by_cases hholds : e.Holds σ
  · rw [decide_eq_true hholds, if_pos hholds]
    rfl
  · rw [decide_eq_false hholds, if_neg hholds]
    rfl

/-- The two numbers are the least and the greatest value. -/
theorem CanRange.rangeBounds_spec (h : CanRange impl q) :
    ∃ min max, rangeBounds impl q = some (min, max) ∧ IsLeast q.values min.toNat
      ∧ IsGreatest q.values max.toNat := by
  unfold rangeBounds
  split
  next hw =>
    have hbool : q.expr.IsBool := ⟨h.wellTyped, hw⟩
    have hvalue := toNat_of_isBool hbool
    obtain ⟨v, hv, hvalidity⟩ := h.evaluate hbool
    rw [Partial.bind_of_eq hv]
    cases v with
    | True =>
      have hone : ∀ n ∈ q.values, n = 1 := by
        rintro n ⟨σ, hσ, rfl⟩
        rw [hvalue, if_pos (hvalidity σ hσ)]
      obtain ⟨σ, hσ⟩ := h.consistent
      have hmem : 1 ∈ q.values := ⟨σ, hσ, by rw [hvalue, if_pos (hvalidity σ hσ)]⟩
      exact ⟨1, 1, rfl, ⟨hmem, fun n hn => (hone n hn).ge⟩, ⟨hmem, fun n hn => (hone n hn).le⟩⟩
    | False =>
      have hzero : ∀ n ∈ q.values, n = 0 := by
        rintro n ⟨σ, hσ, rfl⟩
        rw [hvalue, if_neg (hvalidity σ hσ)]
      obtain ⟨σ, hσ⟩ := h.consistent
      have hmem : 0 ∈ q.values := ⟨σ, hσ, by rw [hvalue, if_neg (hvalidity σ hσ)]⟩
      exact ⟨0, 0, rfl, ⟨hmem, fun n hn => (hzero n hn).ge⟩, ⟨hmem, fun n hn => (hzero n hn).le⟩⟩
    | Unknown =>
      obtain ⟨⟨σ, hσ, ht⟩, ⟨τ, hτ, hf⟩⟩ := hvalidity
      have hone : 1 ∈ q.values := ⟨σ, hσ, by rw [hvalue, if_pos ht]⟩
      have hzero : 0 ∈ q.values := ⟨τ, hτ, by rw [hvalue, if_neg hf]⟩
      refine ⟨0, 1, rfl, ⟨hzero, fun n _ => Nat.zero_le n⟩, ⟨hone, fun n hn => ?_⟩⟩
      have hlt := h.values_lt hn
      rw [hw] at hlt
      exact Nat.le_of_lt_succ hlt
  next =>
    split
    next CE hCE =>
      have hvalue : ∀ σ, (q.expr.eval σ).toNat = CE.toNat := by
        intro σ
        rw [hCE, Expr.eval_Constant]
      obtain ⟨σ, hσ⟩ := h.consistent
      have hmem : CE.toNat ∈ q.values := ⟨σ, hσ, hvalue σ⟩
      have hword : (BitVec.ofNat 64 CE.toNat).toNat = CE.toNat := by
        rw [BitVec.toNat_ofNat, Nat.mod_eq_of_lt (h.values_lt_word hmem)]
      refine ⟨_, _, rfl, ?_, ?_⟩
      · rw [hword]
        refine ⟨hmem, ?_⟩
        rintro n ⟨τ, -, rfl⟩
        exact (hvalue τ).ge
      · rw [hword]
        refine ⟨hmem, ?_⟩
        rintro n ⟨τ, -, rfl⟩
        exact (hvalue τ).le
    next =>
      obtain ⟨bits, hrun, hbits, hvalues⟩ := h.usefulBits_spec
      obtain ⟨min, hmin, hleast⟩ := h.leastValue_spec hbits hvalues
      obtain ⟨max, hmax, hgreatest⟩ := h.greatestValue_spec hbits hvalues hleast
      refine ⟨min, max, ?_, hleast, hgreatest⟩
      rw [Partial.bind_of_eq hrun, Partial.bind_of_eq hmin, Partial.bind_of_eq hmax]
      rfl

/-- `getRange` is exact: it returns the least and the greatest unsigned value that the expression has
under the solutions of the constraints. -/
theorem getRange_exact (h : CanRange impl q) :
    ∃ min max : ℕ, getRange impl q
        = some (ConstantExpr.alloc min q.expr.width, ConstantExpr.alloc max q.expr.width)
      ∧ IsLeast q.values min ∧ IsGreatest q.values max := by
  obtain ⟨min, max, hrun, hleast, hgreatest⟩ := h.rangeBounds_spec
  refine ⟨min.toNat, max.toNat, ?_, hleast, hgreatest⟩
  have hmin := ConstantExpr.create_eq h.width_le (h.values_lt hleast.1)
  have hmax := ConstantExpr.create_eq h.width_le (h.values_lt hgreatest.1)
  unfold getRange
  rw [Partial.bind_of_eq hrun]
  dsimp only
  rw [Partial.bind_of_eq hmin, Partial.bind_of_eq hmax]
  rfl

end Sound

/-- A byte that is at least 3. -/
def atLeastThree : Query :=
  ⟨[.Cmp .Ule (.Constant ⟨8, 3⟩) ConstraintManager.firstByte], ConstraintManager.firstByte⟩

theorem satisfies_atLeastThree (σ : Env) :
    Satisfies σ atLeastThree.constraints ↔ 3 ≤ (atLeastThree.expr.eval σ).toNat := by
  have hbyte : Denotes σ ConstraintManager.firstByte (σ ⟨0, "a", 4, [], .inl rfl⟩ 0) :=
    ⟨by decide, rfl⟩
  have hcmp := denotes_cmp (k := .Ule) (denotes_const (by decide) (3 : BitVec 8)) hbyte
  have hholds := hcmp.holds_iff.trans BitVec.ule_iff_toNat_le
  have hvalue : (atLeastThree.expr.eval σ).toNat = (σ ⟨0, "a", 4, [], .inl rfl⟩ 0).toNat :=
    congrArg APInt.toNat hbyte.2
  rw [hvalue]
  exact List.forall_mem_singleton.trans hholds

theorem getRange_exact_byte :
    getRange exactSolver atLeastThree = some (.Constant ⟨8, 3⟩, .Constant ⟨8, 255⟩) := by
  have hmem : ∀ x : BitVec 8, 3 ≤ x.toNat → x.toNat ∈ atLeastThree.values := by
    intro x hx
    exact ⟨fun _ _ => x, (satisfies_atLeastThree _).mpr hx, rfl⟩
  have hrange : CanRange exactSolver atLeastThree :=
    { correct := exactSolver_correct
      answers := exactSolver_answers
      consistent := ⟨fun _ _ => 3, (satisfies_atLeastThree _).mpr (by decide)⟩
      wellTyped := by decide
      width_le := by decide }
  obtain ⟨min, max, hrun, ⟨hmin, hleast⟩, ⟨hmax, hgreatest⟩⟩ := getRange_exact hrange
  have hmin3 : min = 3 := by
    have hle := hleast (hmem 3 (by decide))
    obtain ⟨σ, hσ, hval⟩ := hmin
    have hge := (satisfies_atLeastThree σ).mp hσ
    exact Nat.le_antisymm hle (hval ▸ hge)
  have hmax255 : max = 255 := by
    have hge := hgreatest (hmem 255 (by decide))
    have hlt := hrange.values_lt hmax
    exact Nat.le_antisymm (Nat.le_of_lt_succ hlt) hge
  rw [hrun, hmin3, hmax255]
  rfl

end Solver

end Xklee
