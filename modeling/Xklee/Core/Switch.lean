/-
Symbolic switches: `Instruction::Switch` in `Executor::executeInstruction` of
`lib/Core/Executor.cpp`.

The cases that are possible are collected in a map from blocks to conditions, where cases with one
successor are or-ed, and the condition of the default is built next to it. The default is inserted
last, and an insertion into a `std::map` does not overwrite. `Executor::branch` gets the conditions
of the map in its order.

The conditions are those by which LLVM chooses the blocks unless the default is possible and its
block is also that of a case that is possible: then the default condition is lost.
-/
import Xklee.Core.BranchSound
import Xklee.Core.MemoryState
import Xklee.Data.KeyedList
import Xklee.Solver.ExactSolver

set_option autoImplicit false

namespace Xklee

/-- `SwitchInst`: the cases with their successors, and the default. A number stands for a block
and its address. LLVM refuses two cases of one value. -/
structure SwitchInst where
  cases : List (APInt × ℕ)
  defaultDest : ℕ
  distinct : (cases.map Prod.fst).Nodup

/-- `findCaseValue`: where LLVM goes for a value. -/
def SwitchInst.successor (si : SwitchInst) (value : APInt) : ℕ :=
  (si.cases.lookup value).getD si.defaultDest

namespace Switch

/-- `targets` and `isDefault`. -/
structure Targets where
  targets : List (ℕ × Expr)
  isDefault : Expr

section

variable (solver : TimingSolver) (constraints : List Expr) (cond : Expr)

/-- The body of the loop over the cases. -/
def addCase (s : Targets) (c : APInt × ℕ) : Option Targets := do
  let isMatch := EqExpr.create cond (.Constant c.1)
  let isDefault := AndExpr.create s.isDefault isMatch.createIsZero
  let result ← solver.mayBeTrue constraints isMatch
  if result then
    let insert (old : Option (ℕ × Expr)) : Option (ℕ × Expr) :=
      let second := (old.map Prod.snd).getD (ConstantExpr.alloc 0 Expr.BoolWidth)
      some (c.2, OrExpr.create isMatch second)
    some ⟨KeyedList.alter Prod.fst c.2 insert s.targets, isDefault⟩
  else some ⟨s.targets, isDefault⟩

/-- The map when the default has been inserted. -/
def switchTargets (si : SwitchInst) : Option (List (ℕ × Expr)) := do
  let s ← si.cases.foldlM (addCase solver constraints cond)
    ⟨[], ConstantExpr.alloc 1 Expr.BoolWidth⟩
  let res ← solver.mayBeTrue constraints s.isDefault
  if res then
    let insert (old : Option (ℕ × Expr)) : Option (ℕ × Expr) :=
      some (old.getD (si.defaultDest, s.isDefault))
    some (KeyedList.alter Prod.fst si.defaultDest insert s.targets)
  else some s.targets

end

/-! ## The map -/

/-- Some assignment of the constraints gives the condition the value. -/
def Possible (constraints : List Expr) (cond : Expr) (value : APInt) : Prop :=
  ∃ σ, Satisfies σ constraints ∧ cond.eval σ = value

/-- Membership in a map after an insertion at a block. -/
theorem mem_alter_iff {targets : List (ℕ × Expr)} {b : ℕ} {f : Option (ℕ × Expr) → ℕ × Expr}
    (hsorted : KeyedList.Sorted Prod.fst targets)
    (hf : KeyedList.KeepsKey Prod.fst b fun o => some (f o)) (p : ℕ × Expr) :
    p ∈ KeyedList.alter Prod.fst b (fun o => some (f o)) targets
      ↔ if p.1 = b then p = f (KeyedList.toMap Prod.fst targets b) else p ∈ targets := by
  rw [← KeyedList.toMap_keyOf (KeyedList.sorted_alter hf hsorted), KeyedList.toMap_alter hf hsorted]
  split
  next hb =>
    rw [hb, Function.update_self, Option.some.injEq]
    exact eq_comm
  next hb => rw [Function.update_of_ne hb, KeyedList.toMap_keyOf hsorted]

section

variable {solver : TimingSolver} {constraints : List Expr} {cond : Expr}

/-- The test for a case. -/
theorem match_holds (hcond : cond.WellTyped) {value : APInt} (hwidth : value.width = cond.width) :
    (EqExpr.create cond (.Constant value)).IsBool
      ∧ ∀ σ, (EqExpr.create cond (.Constant value)).Holds σ ↔ cond.eval σ = value := by
  obtain ⟨w, y⟩ := value
  obtain rfl : w = cond.width := hwidth
  have hdenotes : ∀ σ, ∃ x, Denotes σ cond x ∧ Denotes σ
      (EqExpr.create cond (.Constant ⟨cond.width, y⟩)) (BitVec.ofBool (x == y)) := by
    intro σ
    obtain ⟨x, hx⟩ := hcond.denotes (σ := σ) rfl
    exact ⟨x, hx, EqExpr.create_denotes hx (denotes_const hx.width_pos y)⟩
  refine ⟨?_, fun σ => ?_⟩
  · obtain ⟨x, -, hd⟩ := hdenotes fun _ _ => 0
    exact ⟨hd.1, hd.width_eq⟩
  · obtain ⟨x, hx, hd⟩ := hdenotes σ
    rw [hd.holds_iff, hx.2, beq_iff_eq, APInt.mk_inj]

variable {l r : Expr} {cases : List (APInt × ℕ)} {s s' : Targets}

theorem and_holds (hl : l.IsBool) (hr : r.IsBool) :
    (AndExpr.create l r).IsBool ∧ ∀ σ, (AndExpr.create l r).Holds σ ↔ l.Holds σ ∧ r.Holds σ := by
  have hdenotes := fun σ => AndExpr.create_denotes (hl.denotes σ) (hr.denotes σ)
  refine ⟨⟨(hdenotes fun _ _ => 0).1, (hdenotes fun _ _ => 0).width_eq⟩, fun σ => ?_⟩
  have hd := hdenotes σ
  rw [BitVec.ofBool_and_ofBool] at hd
  rw [hd.holds_iff]
  simp

theorem or_holds (hl : l.IsBool) (hr : r.IsBool) :
    (OrExpr.create l r).IsBool ∧ ∀ σ, (OrExpr.create l r).Holds σ ↔ l.Holds σ ∨ r.Holds σ := by
  have hdenotes := fun σ => OrExpr.create_denotes (hl.denotes σ) (hr.denotes σ)
  refine ⟨⟨(hdenotes fun _ _ => 0).1, (hdenotes fun _ _ => 0).width_eq⟩, fun σ => ?_⟩
  have hd := hdenotes σ
  rw [BitVec.ofBool_or_ofBool] at hd
  rw [hd.holds_iff]
  simp

/-- What the map and the default condition say of the cases so far. -/
structure Targets.Inv (constraints : List Expr) (cond : Expr) (cases : List (APInt × ℕ))
    (s : Targets) : Prop where
  sorted : KeyedList.Sorted Prod.fst s.targets
  isBool : ∀ p ∈ s.targets, p.2.IsBool
  holds : ∀ p ∈ s.targets, ∀ σ, p.2.Holds σ
    ↔ ∃ value, (value, p.1) ∈ cases ∧ Possible constraints cond value ∧ cond.eval σ = value
  present : ∀ b, (∃ p ∈ s.targets, p.1 = b)
    ↔ ∃ value, (value, b) ∈ cases ∧ Possible constraints cond value
  defaultIsBool : s.isDefault.IsBool
  defaultHolds : ∀ σ, s.isDefault.Holds σ ↔ ∀ c ∈ cases, cond.eval σ ≠ c.1

/-- The condition in the map for a block, false where there is none. -/
theorem Targets.Inv.second (hinv : s.Inv constraints cond cases) (b : ℕ) :
    let second := ((KeyedList.toMap Prod.fst s.targets b).map Prod.snd).getD
      (ConstantExpr.alloc 0 Expr.BoolWidth)
    second.IsBool ∧ ∀ σ, second.Holds σ
      ↔ ∃ value, (value, b) ∈ cases ∧ Possible constraints cond value ∧ cond.eval σ = value := by
  cases hold : KeyedList.toMap Prod.fst s.targets b with
  | none =>
    refine ⟨by decide, fun σ => iff_of_false (fun h => Bool.false_ne_true h) ?_⟩
    rintro ⟨value, hmem, hpossible, -⟩
    have hpresent := (hinv.present b).mpr ⟨value, hmem, hpossible⟩
    exact KeyedList.toMap_ne_none.mpr hpresent hold
  | some p =>
    obtain rfl := KeyedList.keyOf_of_toMap hold
    have hmem := (KeyedList.toMap_keyOf hinv.sorted).mp hold
    exact ⟨hinv.isBool p hmem, hinv.holds p hmem⟩

/-- A case is added to the map if it is possible, and its negation to the default condition. -/
theorem addCase_inv (htruth : solver.Truthful constraints) (hcond : cond.WellTyped) {c : APInt × ℕ}
    (hwidth : c.1.width = cond.width) (hinv : s.Inv constraints cond cases)
    (h : addCase solver constraints cond s c = some s') :
    s'.Inv constraints cond (cases ++ [c]) := by
  obtain ⟨hmatchBool, hmatch⟩ := match_holds hcond hwidth
  obtain ⟨result, hresult, h⟩ := Option.bind_eq_some_iff.mp h
  have hpossible : result = true ↔ Possible constraints cond c.1 := by
    rw [htruth.mayBeTrue hmatchBool hresult]
    exact exists_congr fun σ => and_congr_right fun _ => hmatch σ
  obtain ⟨hdefaultBool, hdefault⟩ := and_holds hinv.defaultIsBool hmatchBool.createIsZero
  have hdefault' : ∀ σ, (AndExpr.create s.isDefault
      (EqExpr.create cond (.Constant c.1)).createIsZero).Holds σ
        ↔ ∀ d ∈ cases ++ [c], cond.eval σ ≠ d.1 := by
    intro σ
    rw [hdefault, hinv.defaultHolds, hmatchBool.holds_createIsZero, hmatch]
    simp [or_imp, forall_and]
  cases result with
  | false =>
    obtain rfl := Option.some.inj h
    have hnot : ¬Possible constraints cond c.1 := fun hp => by simpa using hpossible.mpr hp
    have hcases : ∀ (b : ℕ) (P : APInt → Prop), (∃ value, (value, b) ∈ cases ++ [c]
        ∧ Possible constraints cond value ∧ P value)
          ↔ ∃ value, (value, b) ∈ cases ∧ Possible constraints cond value ∧ P value := by
      intro b P
      refine exists_congr fun value => ?_
      rw [List.mem_append, List.mem_singleton, or_and_right]
      refine or_iff_left ?_
      rintro ⟨rfl, hp, -⟩
      exact hnot hp
    refine ⟨hinv.sorted, hinv.isBool, fun p hp σ => ?_, fun b => ?_, hdefaultBool, hdefault'⟩
    · rw [hinv.holds p hp σ, hcases p.1 fun value => cond.eval σ = value]
    · have hcase := hcases b fun _ => True
      simp only [and_true] at hcase
      rw [hinv.present b, hcase]
  | true =>
    obtain rfl := Option.some.inj h
    have hp := hpossible.mp rfl
    obtain ⟨hsecondBool, hsecond⟩ := hinv.second c.2
    obtain ⟨horBool, hor⟩ := or_holds hmatchBool hsecondBool
    have hmem := mem_alter_iff (f := fun old => (c.2, OrExpr.create
      (EqExpr.create cond (.Constant c.1)) ((old.map Prod.snd).getD
        (ConstantExpr.alloc 0 Expr.BoolWidth)))) hinv.sorted (b := c.2)
      (fun _ _ v hv => (Option.some.inj hv) ▸ rfl)
    have hcases : ∀ (b : ℕ) (P : APInt → Prop), (∃ value, (value, b) ∈ cases ++ [c]
        ∧ Possible constraints cond value ∧ P value)
          ↔ (b = c.2 ∧ P c.1)
            ∨ ∃ value, (value, b) ∈ cases ∧ Possible constraints cond value ∧ P value := by
      intro b P
      constructor
      · rintro ⟨value, hv, hvp, hP⟩
        rcases List.mem_append.mp hv with hv | hv
        · exact .inr ⟨value, hv, hvp, hP⟩
        · obtain ⟨rfl, rfl⟩ := Prod.mk.inj (List.mem_singleton.mp hv)
          exact .inl ⟨rfl, hP⟩
      · rintro (⟨rfl, hP⟩ | ⟨value, hv, hvp, hP⟩)
        · exact ⟨c.1, List.mem_append_right _ (List.mem_singleton.mpr rfl), hp, hP⟩
        · exact ⟨value, List.mem_append_left _ hv, hvp, hP⟩
    refine ⟨KeyedList.sorted_alter (fun _ _ v hv => (Option.some.inj hv) ▸ rfl) hinv.sorted,
      fun p hpmem => ?_, fun p hpmem σ => ?_, fun b => ?_, hdefaultBool, hdefault'⟩
    · rw [hmem] at hpmem
      split at hpmem
      next => rw [hpmem]; exact horBool
      next => exact hinv.isBool p hpmem
    · rw [hcases p.1 fun value => cond.eval σ = value]
      rw [hmem] at hpmem
      split at hpmem
      next hb => rw [hpmem, hor, hmatch, hsecond]; simp
      next hb => rw [hinv.holds p hpmem σ, or_iff_right fun h => hb h.1]
    · have hcase := hcases b fun _ => True
      simp only [and_true] at hcase
      rw [hcase, ← hinv.present b]
      constructor
      · rintro ⟨p, hpmem, rfl⟩
        rw [hmem] at hpmem
        split at hpmem
        next hb => exact .inl hb
        next hb => exact .inr ⟨p, hpmem, rfl⟩
      · intro h
        by_cases hb : b = c.2
        · exact ⟨(c.2, _), (hmem (c.2, _)).mpr (by rw [if_pos rfl]), hb.symm⟩
        · obtain ⟨p, hpmem, rfl⟩ := h.resolve_left hb
          exact ⟨p, (hmem p).mpr (by rwa [if_neg hb]), rfl⟩

theorem foldlM_addCase_inv (htruth : solver.Truthful constraints) (hcond : cond.WellTyped)
    {rest : List (APInt × ℕ)} (hwidth : ∀ c ∈ rest, c.1.width = cond.width)
    (hinv : s.Inv constraints cond cases)
    (h : rest.foldlM (addCase solver constraints cond) s = some s') :
    s'.Inv constraints cond (cases ++ rest) := by
  induction rest generalizing cases s with
  | nil =>
    obtain rfl := Option.some.inj h
    rwa [List.append_nil]
  | cons c rest ih =>
    obtain ⟨hc, hwidth⟩ := List.forall_mem_cons.mp hwidth
    rw [List.foldlM_cons] at h
    obtain ⟨mid, hmid, h⟩ := Option.bind_eq_some_iff.mp h
    have hrest := ih hwidth (addCase_inv htruth hcond hc hinv hmid) h
    rwa [List.append_assoc] at hrest

theorem inv_start : Targets.Inv constraints cond [] ⟨[], ConstantExpr.alloc 1 Expr.BoolWidth⟩ where
  sorted := .nil
  isBool := by simp
  holds := by simp
  present := by simp
  defaultIsBool := by decide
  defaultHolds σ := iff_of_true rfl (by simp)

theorem foldlM_addCase_returns (hreliable : solver.Reliable constraints) (hcond : cond.WellTyped)
    (hwidth : ∀ c ∈ cases, c.1.width = cond.width) (s : Targets) :
    ∃ s', cases.foldlM (addCase solver constraints cond) s = some s' := by
  induction cases generalizing s with
  | nil => exact ⟨s, rfl⟩
  | cons c cases ih =>
    obtain ⟨hc, hwidth⟩ := List.forall_mem_cons.mp hwidth
    obtain ⟨result, hresult, -⟩ := hreliable.mayBeTrue (match_holds hcond hc).1
    obtain ⟨mid, hmid⟩ : ∃ mid, addCase solver constraints cond s c = some mid := by
      simp only [addCase, hresult, Option.bind_eq_bind, Option.bind_some]
      split
      · exact ⟨_, rfl⟩
      · exact ⟨_, rfl⟩
    obtain ⟨s', hs'⟩ := ih hwidth mid
    exact ⟨s', by rw [List.foldlM_cons, hmid]; exact hs'⟩

end

/-! ## The conditions -/

section

variable {si : SwitchInst}

variable {value : APInt} {b : ℕ}

theorem lookup_of_mem {cases : List (APInt × ℕ)} (h : (cases.map Prod.fst).Nodup)
    (hmem : (value, b) ∈ cases) : cases.lookup value = some b := by
  induction cases with
  | nil => cases hmem
  | cons c cases ih =>
    obtain ⟨v, b'⟩ := c
    obtain ⟨hnot, hnodup⟩ := List.nodup_cons.mp h
    rcases List.mem_cons.mp hmem with heq | hmem
    · obtain ⟨rfl, rfl⟩ := Prod.mk.inj heq
      simp
    · have hne : value ≠ v := fun heq => hnot (List.mem_map.mpr ⟨_, hmem, heq⟩)
      rw [List.lookup_cons, beq_false_of_ne hne]
      exact ih hnodup hmem

/-- A value of a case goes to the successor of the case. -/
theorem successor_of_mem (h : (value, b) ∈ si.cases) :
    si.successor value = b := by
  rw [SwitchInst.successor, lookup_of_mem si.distinct h]
  rfl

/-- A value of no case goes to the default. -/
theorem successor_of_default (h : ∀ c ∈ si.cases, value ≠ c.1) :
    si.successor value = si.defaultDest := by
  have hnone : si.cases.lookup value = none := by
    rw [List.lookup_eq_none_iff]
    intro c hc
    simpa using h c hc
  rw [SwitchInst.successor, hnone]
  rfl

end

/-- What is expected of the conditions for the blocks: no two hold at once, one holds under each
assignment of the constraints, and the one for a block holds where LLVM goes to the block. -/
structure Partition (constraints : List Expr) (cond : Expr) (si : SwitchInst)
    (targets : List (ℕ × Expr)) : Prop where
  exclusive : Executor.Exclusive [] (targets.map Prod.snd)
  exhaustive : ∀ σ, Satisfies σ constraints → ∃ p ∈ targets, p.2.Holds σ
  exact : ∀ p ∈ targets, ∀ σ, Satisfies σ constraints →
    (p.2.Holds σ ↔ si.successor (cond.eval σ) = p.1)

/-- Some assignment of the constraints gives the condition the value of no case. -/
def DefaultPossible (constraints : List Expr) (cond : Expr) (si : SwitchInst) : Prop :=
  ∃ σ, Satisfies σ constraints ∧ ∀ c ∈ si.cases, cond.eval σ ≠ c.1

/-- The default and a case with its block are both possible. -/
def SharesDefault (constraints : List Expr) (cond : Expr) (si : SwitchInst) : Prop :=
  DefaultPossible constraints cond si
    ∧ ∃ value, (value, si.defaultDest) ∈ si.cases ∧ Possible constraints cond value

section

variable {solver : TimingSolver} {constraints : List Expr} {cond : Expr} {si : SwitchInst}
  {targets : List (ℕ × Expr)}

/-- What is known of the map when the default has been inserted. -/
structure Complete (constraints : List Expr) (cond : Expr) (si : SwitchInst)
    (targets : List (ℕ × Expr)) : Prop where
  sorted : KeyedList.Sorted Prod.fst targets
  isBool : ∀ p ∈ targets, p.2.IsBool
  sends : ∀ p ∈ targets, ∀ σ, p.2.Holds σ → si.successor (cond.eval σ) = p.1
  cases : ∀ σ, Satisfies σ constraints → (∃ c ∈ si.cases, cond.eval σ = c.1) →
    ∃ p ∈ targets, p.2.Holds σ
  default : ∀ σ, Satisfies σ constraints → (∀ c ∈ si.cases, cond.eval σ ≠ c.1) →
    ((∃ p ∈ targets, p.2.Holds σ) ↔ ¬SharesDefault constraints cond si)

theorem switchTargets_complete (htruth : solver.Truthful constraints) (hcond : cond.WellTyped)
    (hwidth : ∀ c ∈ si.cases, c.1.width = cond.width)
    (h : switchTargets solver constraints cond si = some targets) :
    Complete constraints cond si targets := by
  obtain ⟨s, hs, h⟩ := Option.bind_eq_some_iff.mp h
  obtain ⟨res, hres, h⟩ := Option.bind_eq_some_iff.mp h
  have hinv := foldlM_addCase_inv htruth hcond hwidth inv_start hs
  rw [List.nil_append] at hinv
  have hdefault : res = true ↔ DefaultPossible constraints cond si := by
    rw [htruth.mayBeTrue hinv.defaultIsBool hres]
    exact exists_congr fun σ => and_congr_right fun _ => hinv.defaultHolds σ
  have hsends : ∀ p ∈ s.targets, ∀ σ, p.2.Holds σ → si.successor (cond.eval σ) = p.1 := by
    intro p hp σ hholds
    obtain ⟨value, hmem, -, rfl⟩ := (hinv.holds p hp σ).mp hholds
    exact successor_of_mem hmem
  have hcases : ∀ σ, Satisfies σ constraints → ∀ c ∈ si.cases, cond.eval σ = c.1 →
      ∃ p ∈ s.targets, p.1 = c.2 ∧ p.2.Holds σ := by
    intro σ hσ c hc heq
    have hpossible : Possible constraints cond c.1 := ⟨σ, hσ, heq⟩
    obtain ⟨p, hp, hb⟩ := (hinv.present c.2).mpr ⟨c.1, hc, hpossible⟩
    exact ⟨p, hp, hb, (hinv.holds p hp σ).mpr ⟨c.1, hb ▸ hc, hpossible, heq⟩⟩
  have hnocase : ∀ σ, (∀ c ∈ si.cases, cond.eval σ ≠ c.1) → ∀ p ∈ s.targets, ¬p.2.Holds σ := by
    intro σ hno p hp hholds
    obtain ⟨value, hmem, -, heq⟩ := (hinv.holds p hp σ).mp hholds
    exact hno _ hmem heq
  cases res with
  | false =>
    obtain rfl := Option.some.inj h
    refine ⟨hinv.sorted, hinv.isBool, hsends, ?_, ?_⟩
    · rintro σ hσ ⟨c, hc, heq⟩
      obtain ⟨p, hp, -, hholds⟩ := hcases σ hσ c hc heq
      exact ⟨p, hp, hholds⟩
    · intro σ hσ hno
      have hposs : DefaultPossible constraints cond si := ⟨σ, hσ, hno⟩
      simpa using hdefault.mpr hposs
  | true =>
    obtain rfl := Option.some.inj h
    have hkeeps : KeyedList.KeepsKey Prod.fst si.defaultDest
        fun old : Option (ℕ × Expr) => some (old.getD (si.defaultDest, s.isDefault)) := by
      intro old hold v hv
      obtain rfl := Option.some.inj hv
      cases old with
      | none => rfl
      | some q => exact hold q rfl
    have hmem := mem_alter_iff hinv.sorted hkeeps
    have hsorted := KeyedList.sorted_alter hkeeps hinv.sorted
    cases hold : KeyedList.toMap Prod.fst s.targets si.defaultDest with
    | none =>
      -- no case that is possible goes to the block of the default
      have hfree : ∀ p ∈ s.targets, p.1 ≠ si.defaultDest := fun p hp hb =>
        KeyedList.toMap_ne_none.mpr ⟨p, hp, hb⟩ hold
      have hmem' : ∀ p : ℕ × Expr, p ∈ KeyedList.alter Prod.fst si.defaultDest
          (fun old => some (old.getD (si.defaultDest, s.isDefault))) s.targets
            ↔ p = (si.defaultDest, s.isDefault) ∨ p ∈ s.targets := by
        intro p
        rw [hmem p, hold, Option.getD_none]
        split
        next hb => exact (or_iff_left fun hp => hfree p hp hb).symm
        next hb => exact (or_iff_right fun heq => hb (congrArg Prod.fst heq)).symm
      have hnotShared : ¬SharesDefault constraints cond si := by
        rintro ⟨-, hshared⟩
        obtain ⟨p, hp, hb⟩ := (hinv.present si.defaultDest).mpr hshared
        exact hfree p hp hb
      refine ⟨hsorted, fun p hp => ?_, fun p hp σ hholds => ?_, ?_, fun σ _ hno => ?_⟩
      · rcases (hmem' p).mp hp with rfl | hp
        · exact hinv.defaultIsBool
        · exact hinv.isBool p hp
      · rcases (hmem' p).mp hp with rfl | hp
        · exact successor_of_default ((hinv.defaultHolds σ).mp hholds)
        · exact hsends p hp σ hholds
      · rintro σ hσ ⟨c, hc, heq⟩
        obtain ⟨p, hp, -, hholds⟩ := hcases σ hσ c hc heq
        exact ⟨p, (hmem' p).mpr (.inr hp), hholds⟩
      · exact iff_of_true ⟨_, (hmem' _).mpr (.inl rfl), (hinv.defaultHolds σ).mpr hno⟩ hnotShared
    | some q =>
      obtain hq := (KeyedList.toMap_keyOf hinv.sorted).mp
        ((KeyedList.keyOf_of_toMap hold).symm ▸ hold)
      have hmem' : ∀ p : ℕ × Expr, p ∈ KeyedList.alter Prod.fst si.defaultDest
          (fun old => some (old.getD (si.defaultDest, s.isDefault))) s.targets
            ↔ p ∈ s.targets := by
        intro p
        rw [hmem p, hold, Option.getD_some]
        split
        next hb =>
          rw [← KeyedList.toMap_keyOf hinv.sorted, hb, hold, Option.some.injEq]
          exact eq_comm
        next => rfl
      have hshared : SharesDefault constraints cond si :=
        ⟨hdefault.mp rfl, (hinv.present _).mp ⟨q, hq, KeyedList.keyOf_of_toMap hold⟩⟩
      refine ⟨hsorted, fun p hp => hinv.isBool p ((hmem' p).mp hp),
        fun p hp => hsends p ((hmem' p).mp hp), ?_, fun σ _ hno => ?_⟩
      · rintro σ hσ ⟨c, hc, heq⟩
        obtain ⟨p, hp, -, hholds⟩ := hcases σ hσ c hc heq
        exact ⟨p, (hmem' p).mpr hp, hholds⟩
      · refine iff_of_false ?_ (not_not_intro hshared)
        rintro ⟨p, hp, hholds⟩
        exact hnocase σ hno p ((hmem' p).mp hp) hholds

/-- Entries of one block are one. -/
theorem Complete.eq_of_block (h : Complete constraints cond si targets) {p q : ℕ × Expr}
    (hp : p ∈ targets) (hq : q ∈ targets) (hblock : p.1 = q.1) : p = q := by
  have hp' := (KeyedList.toMap_keyOf h.sorted).mpr hp
  have hq' := (KeyedList.toMap_keyOf h.sorted).mpr hq
  rw [hblock, hq'] at hp'
  exact (Option.some.inj hp').symm

theorem Complete.exclusive (h : Complete constraints cond si targets) :
    Executor.Exclusive [] (targets.map Prod.snd) := by
  intro i j c c' hi hj hij σ _ hholds hholds'
  obtain ⟨hilt, hi⟩ := List.getElem?_eq_some_iff.mp hi
  obtain ⟨hjlt, hj⟩ := List.getElem?_eq_some_iff.mp hj
  rw [List.getElem_map] at hi hj
  rw [List.length_map] at hilt hjlt
  subst hi hj
  have hsent := h.sends _ (List.getElem_mem hilt) σ hholds
  have hsent' := h.sends _ (List.getElem_mem hjlt) σ hholds'
  have hsame := hsent.symm.trans hsent'
  rcases Nat.lt_or_gt_of_ne hij with hlt | hlt
  · exact (List.pairwise_iff_getElem.mp h.sorted i j hilt hjlt hlt).ne hsame
  · exact (List.pairwise_iff_getElem.mp h.sorted j i hjlt hilt hlt).ne hsame.symm

/-- The conditions are those by which LLVM chooses just when the default does not share its block
with a case, both being possible. -/
theorem Complete.partition_iff (h : Complete constraints cond si targets) :
    Partition constraints cond si targets ↔ ¬SharesDefault constraints cond si := by
  constructor
  · intro hpart hshared
    obtain ⟨σ, hσ, hno⟩ := hshared.1
    exact (h.default σ hσ hno).mp (hpart.exhaustive σ hσ) hshared
  · intro hnot
    have hexhaustive : ∀ σ, Satisfies σ constraints → ∃ p ∈ targets, p.2.Holds σ := by
      intro σ hσ
      by_cases hcase : ∃ c ∈ si.cases, cond.eval σ = c.1
      · exact h.cases σ hσ hcase
      · exact (h.default σ hσ fun c hc heq => hcase ⟨c, hc, heq⟩).mpr hnot
    refine ⟨h.exclusive, hexhaustive, fun p hp σ hσ => ⟨h.sends p hp σ, fun hsent => ?_⟩⟩
    obtain ⟨q, hq, hholds⟩ := hexhaustive σ hσ
    obtain rfl := h.eq_of_block hp hq (hsent.symm.trans (h.sends q hq σ hholds))
    exact hholds

theorem switchTargets_returns (hreliable : solver.Reliable constraints) (hcond : cond.WellTyped)
    (hwidth : ∀ c ∈ si.cases, c.1.width = cond.width) :
    ∃ targets, switchTargets solver constraints cond si = some targets := by
  obtain ⟨s, hs⟩ := foldlM_addCase_returns hreliable hcond hwidth
    ⟨[], ConstantExpr.alloc 1 Expr.BoolWidth⟩
  have hinv := foldlM_addCase_inv hreliable.toTruthful hcond hwidth inv_start hs
  obtain ⟨res, hres, -⟩ := hreliable.mayBeTrue hinv.defaultIsBool
  simp only [switchTargets, hs, hres, Option.bind_eq_bind, Option.bind_some]
  split
  · exact ⟨_, rfl⟩
  · exact ⟨_, rfl⟩

/-- For every switch and condition the conditions for the blocks are computed, and they are
exclusive, exhaustive and those by which LLVM chooses the blocks if and only if the default and a
case with its block are not both possible. -/
theorem switchTargets_partition_iff (hreliable : solver.Reliable constraints)
    (hcond : cond.WellTyped) (hwidth : ∀ c ∈ si.cases, c.1.width = cond.width) :
    ∃ targets, switchTargets solver constraints cond si = some targets
      ∧ (Partition constraints cond si targets ↔ ¬SharesDefault constraints cond si) := by
  obtain ⟨targets, htargets⟩ := switchTargets_returns hreliable hcond hwidth
  exact ⟨targets, htargets,
    (switchTargets_complete hreliable.toTruthful hcond hwidth htargets).partition_iff⟩

/-- The exact solver, without simplification. -/
noncomputable def plainSolver : TimingSolver := ⟨exactSolver, false⟩

theorem plainSolver_reliable : plainSolver.Reliable [] where
  correct := exactSolver_correct
  satisfiable := ⟨fun _ _ => 0, by simp [Satisfies]⟩
  isBool := by simp
  answers := exactSolver_answers

/-- One case, and a default somewhere else. -/
def apartSwitch : SwitchInst := ⟨[(⟨8, 1⟩, 5)], 6, by decide⟩

/-- The switch has its two conditions. -/
theorem switchTargets_partition_apart :
    ∃ targets, switchTargets plainSolver [] ConstraintManager.firstByte apartSwitch = some targets
      ∧ Partition [] ConstraintManager.firstByte apartSwitch targets := by
  obtain ⟨targets, htargets, hiff⟩ := switchTargets_partition_iff plainSolver_reliable
    (show ConstraintManager.firstByte.WellTyped by decide)
    (show ∀ c ∈ apartSwitch.cases, c.1.width = ConstraintManager.firstByte.width by decide)
  refine ⟨targets, htargets, hiff.mpr ?_⟩
  rintro ⟨-, value, hmem, -⟩
  simp [apartSwitch] at hmem

/-- Two cases, of which the first goes where the default goes. -/
def sharedSwitch : SwitchInst := ⟨[(⟨8, 1⟩, 5), (⟨8, 2⟩, 6)], 5, by decide⟩

/-- The switch has no condition for a byte of no case. -/
theorem sharedSwitch_not_exhaustive :
    ∃ targets, switchTargets plainSolver [] ConstraintManager.firstByte sharedSwitch = some targets
      ∧ ¬Partition [] ConstraintManager.firstByte sharedSwitch targets := by
  have hcond : ConstraintManager.firstByte.WellTyped := by decide
  have hwidth : ∀ c ∈ sharedSwitch.cases, c.1.width = ConstraintManager.firstByte.width := by decide
  obtain ⟨targets, htargets⟩ := switchTargets_returns plainSolver_reliable hcond hwidth
  refine ⟨targets, htargets, fun hpart => ?_⟩
  have hcomplete :=
    switchTargets_complete plainSolver_reliable.toTruthful hcond hwidth htargets
  refine hcomplete.partition_iff.mp hpart ⟨⟨fun _ _ => 0, by simp [Satisfies], by decide⟩, ⟨8, 1⟩,
    by decide, fun _ _ => 1, by simp [Satisfies], by decide⟩

end

end Switch

end Xklee
