/-
The distances that guide the search, as `StatsTracker::computeReachableUncovered` computes them.

Both loops are sweeps over all instructions until nothing changes, with 0 for a target out of reach.
The first one computes the distance of each instruction to a return of its function, and with it
the shortest path through each function. These paths are kept as `unsigned`, and a path that does
not fit is cut: the loop then compares the entry's distance with the cut one and never ends. The
distances are right for every module in which no path that the loop meets is too long, and in a
module in which the shortest path through a function is too long they are not.
-/
import Mathlib.Logic.Function.Basic
import Xklee.Data.Distance

set_option autoImplicit false

namespace Xklee

namespace StatsTracker

/-! ## Modules -/

/-- What a call site calls. -/
inductive CalledValue
  | InlineAsm
  | direct (target : ℕ)
  | indirect

inductive Instruction
  /-- A `ReturnInst`, or an `UnwindInst` where there is one. -/
  | ReturnInst
  /-- A `CallInst` or an `InvokeInst`. -/
  | CallSite (calledValue : CalledValue)
  | other

structure BasicBlock where
  instructions : List Instruction
  /-- Where the terminator leads to. -/
  successors : List ℕ

/-- A function without blocks is a declaration. -/
structure Function where
  blocks : List BasicBlock
  doesNotReturn : Bool

structure KModule where
  functions : List Function
  escapingFunctions : List ℕ

/-- `Instruction *`. -/
@[ext] structure Position where
  fn : ℕ
  bb : ℕ
  idx : ℕ
  deriving DecidableEq

namespace KModule

variable (km : KModule)

def block (i : Position) : Option BasicBlock := do
  let f ← km.functions[i.fn]?
  f.blocks[i.bb]?

def instruction (i : Position) : Option Instruction := do
  let block ← km.block i
  block.instructions[i.idx]?

def isDeclaration (f : ℕ) : Bool := ((km.functions[f]?).map fun f => f.blocks).getD [] |>.isEmpty

/-- `f->begin()->begin()`. -/
def entry (f : ℕ) : Position := ⟨f, 0, 0⟩

/-- All instructions in the order of the module. -/
def instructions : List Position :=
  km.functions.zipIdx.flatMap fun (f, fn) =>
    f.blocks.zipIdx.flatMap fun (block, bb) =>
      (List.range block.instructions.length).map fun idx => ⟨fn, bb, idx⟩

/-- `callTargets`; nothing for an instruction that is no call. -/
def callTargets (i : Position) : Option (List ℕ) :=
  match km.instruction i with
  | some (.CallSite .InlineAsm) => some []
  | some (.CallSite (.direct target)) => some [target]
  | some (.CallSite .indirect) => some km.escapingFunctions
  | _ => none

def getSuccs (i : Position) : List Position :=
  match km.block i with
  | none => []
  | some block =>
      if i.idx + 1 = block.instructions.length then
        block.successors.map fun bb => ⟨i.fn, bb, 0⟩
      else [⟨i.fn, i.bb, i.idx + 1⟩]

end KModule

/-! ## The loop for `minDistToReturn` -/

/-- `stats::minDistToReturn` and `functionShortestPath`. -/
structure ReturnTables where
  minDistToReturn : Position → ℕ
  functionShortestPath : ℕ → ℕ

variable (km : KModule)

def initialTables : ReturnTables where
  minDistToReturn i := match km.instruction i with
    | some .ReturnInst => 1
    | _ => 0
  functionShortestPath f := match km.functions[f]? with
    | some fn => if fn.blocks.isEmpty && !fn.doesNotReturn then 1 else 0
    | none => 0

/-- The cost of an instruction; of a call as an `unsigned`, and 0 when no target returns. -/
def bestThrough (functionShortestPath : ℕ → ℕ) (inst : Position) : ℕ :=
  match km.callTargets inst with
  | none => 1
  | some targets => targets.foldl (fun bestThrough f => relax 1 bestThrough
      (functionShortestPath f) % 2 ^ 32) 0

/-- The best distance over the successors. -/
def bestReturn (s : ReturnTables) (inst : Position) : ℕ :=
  (km.getSuccs inst).foldl (fun best succ =>
    relax (bestThrough km s.functionShortestPath inst) best (s.minDistToReturn succ))
    (s.minDistToReturn inst)

/-- One round of the inner loop; nothing when it leaves the tables as they are. -/
def returnStep (s : ReturnTables) (inst : Position) : Option ReturnTables :=
  let best := bestReturn km s inst
  if bestThrough km s.functionShortestPath inst ≠ 0 ∧ (best ≠ s.minDistToReturn inst ∨
      inst = KModule.entry inst.fn ∧ s.functionShortestPath inst.fn ≠ best) then
    some {
      minDistToReturn := Function.update s.minDistToReturn inst best
      functionShortestPath :=
        if inst = KModule.entry inst.fn then
          Function.update s.functionShortestPath inst.fn (best % 2 ^ 32)
        else s.functionShortestPath }
  else none

/-- The part of `computeReachableUncovered` that runs once; nothing without enough fuel. -/
def computeReturn (fuel : ℕ) : Option ReturnTables :=
  untilStable (returnStep km) km.instructions.reverse fuel (initialTables km)

/-! ## The loop for `minDistToUncovered` -/

/-- The distance from a callee's entry. -/
def calleeDist (D : Position → ℕ) (f : ℕ) : ℕ :=
  if km.isDeclaration f then 0 else D (KModule.entry f)

/-- The best distance into the callees and over the successors. -/
def bestUncovered (functionShortestPath : ℕ → ℕ) (D : Position → ℕ) (inst : Position) : ℕ :=
  let best := ((km.callTargets inst).getD []).foldl (fun best f => relax 1 best (calleeDist km D f))
    (D inst)
  if bestThrough km functionShortestPath inst = 0 then best
  else (km.getSuccs inst).foldl (fun best succ =>
    relax (bestThrough km functionShortestPath inst) best (D succ)) best

def uncoveredStep (functionShortestPath : ℕ → ℕ) (D : Position → ℕ) (inst : Position) :
    Option (Position → ℕ) :=
  if bestUncovered km functionShortestPath D inst ≠ D inst then
    some (Function.update D inst (bestUncovered km functionShortestPath D inst))
  else none

/-- The part of `computeReachableUncovered` that runs each time. -/
def computeUncovered (functionShortestPath : ℕ → ℕ) (uncovered : Position → Bool) (fuel : ℕ) :
    Option (Position → ℕ) :=
  untilStable (uncoveredStep km functionShortestPath) km.instructions.reverse fuel fun i =>
    if i ∈ km.instructions then (uncovered i).toNat else 0

/-! ## The distances -/

/-- The costs of the ways from an instruction, or through a function, to a return. -/
inductive ReturnRule : CostRule (Position ⊕ ℕ) → Prop
  | here {i : Position} : km.instruction i = some .ReturnInst → ReturnRule ⟨.inl i, 1, []⟩
  | next {i j : Position} : i ∈ km.instructions → km.callTargets i = none → j ∈ km.getSuccs i →
      ReturnRule ⟨.inl i, 1, [.inl j]⟩
  | call {i j : Position} {targets : List ℕ} {f : ℕ} : i ∈ km.instructions →
      km.callTargets i = some targets → f ∈ targets → j ∈ km.getSuccs i →
      ReturnRule ⟨.inl i, 1, [.inr f, .inl j]⟩
  | declaration {f : ℕ} {fn : Function} : km.functions[f]? = some fn → fn.blocks = [] →
      fn.doesNotReturn = false → ReturnRule ⟨.inr f, 1, []⟩
  | function {f : ℕ} : km.isDeclaration f = false →
      ReturnRule ⟨.inr f, 0, [.inl (KModule.entry f)]⟩

def returnRules : Set (CostRule (Position ⊕ ℕ)) := {r | ReturnRule km r}

/-- The costs of the ways to an uncovered instruction, in the function or inside a callee. -/
inductive UncoveredRule (uncovered : Position → Bool) : CostRule Position → Prop
  | here {i : Position} : i ∈ km.instructions → uncovered i = true → UncoveredRule uncovered ⟨i, 1, []⟩
  | next {i j : Position} : i ∈ km.instructions → km.callTargets i = none → j ∈ km.getSuccs i →
      UncoveredRule uncovered ⟨i, 1, [j]⟩
  | call {i j : Position} {targets : List ℕ} {f d : ℕ} : i ∈ km.instructions →
      km.callTargets i = some targets → f ∈ targets → j ∈ km.getSuccs i →
      IsDistance (returnRules km) (.inr f) d → d ≠ 0 → UncoveredRule uncovered ⟨i, 1 + d, [j]⟩
  | callee {i : Position} {targets : List ℕ} {f : ℕ} : i ∈ km.instructions →
      km.callTargets i = some targets → f ∈ targets → km.isDeclaration f = false →
      UncoveredRule uncovered ⟨i, 1, [KModule.entry f]⟩

def uncoveredRules (uncovered : Position → Bool) : Set (CostRule Position) :=
  {r | UncoveredRule km uncovered r}

/-! ## Instructions -/

variable {km}

namespace KModule

theorem mem_instructions {i : Position} : i ∈ km.instructions ↔ km.instruction i ≠ none := by
  have hsome : km.instruction i ≠ none ↔ ∃ f block, km.functions[i.fn]? = some f ∧
      f.blocks[i.bb]? = some block ∧ i.idx < block.instructions.length := by
    unfold instruction block
    cases hf : km.functions[i.fn]? with
    | none => simp
    | some f => cases hb : f.blocks[i.bb]? with
      | none => simp [hb]
      | some block => simp [hb]
  rw [hsome]
  simp only [instructions, List.mem_flatMap, List.mem_map, List.mem_range, Prod.exists,
    List.mk_mem_zipIdx_iff_getElem?]
  constructor
  · rintro ⟨f, fn, hf, block, bb, hb, idx, hidx, rfl⟩
    exact ⟨f, block, hf, hb, hidx⟩
  · rintro ⟨f, block, hf, hb, hidx⟩
    exact ⟨f, i.fn, hf, block, i.bb, hb, i.idx, hidx, rfl⟩

theorem isDeclaration_of_mem {i : Position} (h : i ∈ km.instructions) :
    km.isDeclaration i.fn = false := by
  rw [mem_instructions] at h
  unfold instruction block at h
  unfold isDeclaration
  cases hf : km.functions[i.fn]? with
  | none => simp [hf] at h
  | some f =>
      cases hb : f.blocks with
      | nil => simp [hf, hb] at h
      | cons _ _ => simp [hb]

theorem isDeclaration_of_nil {f : ℕ} {fn : Function} (hf : km.functions[f]? = some fn)
    (h : fn.blocks = []) : km.isDeclaration f = true := by
  simp [isDeclaration, hf, h]

end KModule

/-! ## The cost of an instruction -/

section Through

variable {F : ℕ → ℕ} {i : Position}

theorem bestThrough_none (h : km.callTargets i = none) : bestThrough km F i = 1 := by
  rw [bestThrough, h]

/-- Short paths are not cut. -/
theorem bestThrough_some (hsmall : ∀ f, F f < 2 ^ 32 - 1) {targets : List ℕ}
    (h : km.callTargets i = some targets) :
    bestThrough km F i = targets.foldl (fun b f => relax 1 b (F f)) 0 := by
  rw [bestThrough, h]
  suffices hfold : ∀ b, b < 2 ^ 32 → targets.foldl (fun b f => relax 1 b (F f) % 2 ^ 32) b
      = targets.foldl (fun b f => relax 1 b (F f)) b from hfold 0 (by decide)
  clear h
  induction targets with
  | nil => exact fun _ _ => rfl
  | cons f fs ih =>
      intro b hb
      have hrelax : relax 1 b (F f) < 2 ^ 32 := by
        have := hsmall f
        rcases relax_eq 1 b (F f) with h | ⟨h, -⟩ <;> omega
      rw [List.foldl_cons, List.foldl_cons, Nat.mod_eq_of_lt hrelax]
      exact ih _ hrelax

theorem bestThrough_le (hsmall : ∀ f, F f < 2 ^ 32 - 1) {targets : List ℕ}
    (h : km.callTargets i = some targets) {f : ℕ} (hf : f ∈ targets) (hne : F f ≠ 0) :
    bestThrough km F i ≠ 0 ∧ bestThrough km F i ≤ 1 + F f := by
  rw [bestThrough_some hsmall h]
  exact foldl_relax_le 1 F hf hne 0

/-- A call costs one more than the path through one of its targets. -/
theorem bestThrough_cases (hsmall : ∀ f, F f < 2 ^ 32 - 1) (hne : bestThrough km F i ≠ 0) :
    km.callTargets i = none ∧ bestThrough km F i = 1 ∨
      ∃ targets f, km.callTargets i = some targets ∧ f ∈ targets ∧ F f ≠ 0 ∧
        bestThrough km F i = 1 + F f := by
  cases h : km.callTargets i with
  | none => exact Or.inl ⟨rfl, bestThrough_none h⟩
  | some targets =>
      rw [bestThrough_some hsmall h] at hne ⊢
      rcases foldl_relax_eq 1 F targets 0 with hzero | ⟨f, hf, heq, hf0⟩
      · exact absurd hzero hne
      · exact Or.inr ⟨targets, f, rfl, hf, hf0, heq⟩

end Through

/-! ## The loop for `minDistToReturn` -/

/-- The tables as one table over the nodes of the rules. -/
def ReturnTables.value (s : ReturnTables) : Position ⊕ ℕ → ℕ :=
  Sum.elim s.minDistToReturn s.functionShortestPath

variable (km) in
/-- The path that the entry of a function is about to store is not cut, and neither is its
successor. -/
def Fits (s : ReturnTables) (inst : Position) : Prop :=
  inst = KModule.entry inst.fn → bestThrough km s.functionShortestPath inst ≠ 0 →
    bestReturn km s inst < 2 ^ 32 - 1

variable (km) in
/-- No path that the loop stores is cut. -/
def PathsFit : Prop := ∀ s inst rest,
  Swept (returnStep km) km.instructions.reverse (initialTables km) s (inst :: rest) → Fits km s inst

variable (km) in
/-- What holds of the tables during the loop. -/
structure ReturnTables.Inv (s : ReturnTables) : Prop where
  costs : ∀ n, s.value n ≠ 0 → Costs (returnRules km) n (s.value n)
  small : ∀ f, s.functionShortestPath f < 2 ^ 32 - 1
  here : ∀ i, km.instruction i = some .ReturnInst → Within (s.minDistToReturn i) 1
  declared : ∀ f, km.isDeclaration f = true →
    s.functionShortestPath f = (initialTables km).functionShortestPath f
  entry : ∀ f, km.isDeclaration f = false →
    s.functionShortestPath f = s.minDistToReturn (KModule.entry f) ∨
      s.functionShortestPath f = 0 ∧ km.callTargets (KModule.entry f) = none
  inside : ∀ i, s.minDistToReturn i ≠ 0 → i ∈ km.instructions

variable (km) in
theorem initialTables_path (f : ℕ) : (initialTables km).functionShortestPath f = 0 ∨
    ∃ fn, km.functions[f]? = some fn ∧ fn.blocks = [] ∧ fn.doesNotReturn = false ∧
      (initialTables km).functionShortestPath f = 1 := by
  simp only [initialTables]
  split
  next fn hf =>
    by_cases h : fn.blocks = [] ∧ fn.doesNotReturn = false
    · exact Or.inr ⟨fn, hf, h.1, h.2, if_pos (by simp [h])⟩
    · exact Or.inl (if_neg (by simpa using h))
  next => exact Or.inl rfl

theorem initialTables_function {f : ℕ} (h : km.isDeclaration f = false) :
    (initialTables km).functionShortestPath f = 0 := by
  rcases initialTables_path km f with hzero | ⟨fn, hf, hnil, -⟩
  · exact hzero
  · rw [KModule.isDeclaration_of_nil hf hnil] at h
    cases h

variable (km) in
theorem initialTables_return (i : Position) :
    (initialTables km).minDistToReturn i = 0 ∨
      km.instruction i = some .ReturnInst ∧ (initialTables km).minDistToReturn i = 1 := by
  simp only [initialTables]
  split
  next h => exact Or.inr ⟨h, rfl⟩
  next => exact Or.inl rfl

theorem initialTables_inv : (initialTables km).Inv km where
  costs := by
    rintro (i | f) hne
    · rcases initialTables_return km i with h | ⟨h, heq⟩
      · exact absurd h hne
      · have hvalue : (initialTables km).value (.inl i) = 1 := heq
        rw [hvalue]
        exact .start (.here h)
    · rcases initialTables_path km f with h | ⟨fn, hf, hnil, hreturns, heq⟩
      · exact absurd h hne
      · have hvalue : (initialTables km).value (.inr f) = 1 := heq
        rw [hvalue]
        exact .start (.declaration hf hnil hreturns)
  small f := by
    rcases initialTables_path km f with h | ⟨_, _, _, _, h⟩ <;> rw [h] <;> decide
  here i h := by
    simp only [initialTables, h]
    exact Within.refl 1
  declared _ _ := rfl
  entry f h := by
    rw [initialTables_function h]
    rcases initialTables_return km (KModule.entry f) with h | ⟨h, -⟩
    · exact Or.inl h.symm
    · refine Or.inr ⟨rfl, ?_⟩
      rw [KModule.callTargets, h]
  inside i hne := by
    rcases initialTables_return km i with h | ⟨h, -⟩
    · exact absurd h hne
    · rw [KModule.mem_instructions, h]
      exact Option.some_ne_none _

section Step

variable {s s' : ReturnTables} {i : Position}

theorem returnStep_eq_some (h : returnStep km s i = some s') :
    bestThrough km s.functionShortestPath i ≠ 0 ∧
      (bestReturn km s i ≠ s.minDistToReturn i ∨
        i = KModule.entry i.fn ∧ s.functionShortestPath i.fn ≠ bestReturn km s i) ∧
      s'.minDistToReturn = Function.update s.minDistToReturn i (bestReturn km s i) ∧
      s'.functionShortestPath = if i = KModule.entry i.fn then
        Function.update s.functionShortestPath i.fn (bestReturn km s i % 2 ^ 32)
        else s.functionShortestPath := by
  unfold returnStep at h
  dsimp only at h
  split at h
  next hc =>
    obtain rfl := Option.some.inj h
    exact ⟨hc.1, hc.2, rfl, rfl⟩
  next => cases h

/-- The new distance of an instruction is a cost. -/
theorem ReturnTables.Inv.bestReturn_costs (hs : s.Inv km) (hi : i ∈ km.instructions)
    (hthrough : bestThrough km s.functionShortestPath i ≠ 0) (hne : bestReturn km s i ≠ 0) :
    Costs (returnRules km) (.inl i) (bestReturn km s i) := by
  rcases foldl_relax_eq (bestThrough km s.functionShortestPath i) s.minDistToReturn
      (km.getSuccs i) (s.minDistToReturn i) with h | ⟨j, hj, h, hj0⟩
  · have heq : bestReturn km s i = s.minDistToReturn i := h
    rw [heq] at hne ⊢
    exact hs.costs (.inl i) hne
  · have heq : bestReturn km s i = bestThrough km s.functionShortestPath i + s.minDistToReturn j := h
    have hcj : Costs (returnRules km) (.inl j) (s.minDistToReturn j) := hs.costs (.inl j) hj0
    rw [heq]
    rcases bestThrough_cases hs.small hthrough with ⟨hcall, hone⟩ | ⟨targets, f, hcall, hf, hf0, hcost⟩
    · rw [hone]
      exact .step (.next hi hcall hj) hcj
    · have hcf : Costs (returnRules km) (.inr f) (s.functionShortestPath f) := hs.costs (.inr f) hf0
      rw [hcost, Nat.add_assoc]
      exact .join (.call hi hcall hf hj) Sum.inr_ne_inl hcf hcj

/-- A path that fits is stored as it is. -/
theorem ReturnTables.Inv.returnStep (hs : s.Inv km) (hi : i ∈ km.instructions) (hfits : Fits km s i)
    (h : returnStep km s i = some s') : s'.Inv km ∧
      Lowers {n | n ∈ km.instructions.map Sum.inl ++ km.instructions.map fun i => .inr i.fn}
        s'.value s.value := by
  obtain ⟨hthrough, hchange, hD, hF⟩ := returnStep_eq_some h
  have hcosts := hs.bestReturn_costs hi hthrough
  have hwithin : Within (bestReturn km s i) (s.minDistToReturn i) := foldl_relax_within _ _ _ _
  have hdefined := KModule.isDeclaration_of_mem hi
  have hDi : ∀ j, s'.minDistToReturn j
      = if j = i then bestReturn km s i else s.minDistToReturn j := fun j => by
    rw [hD, Function.update_apply]
  have hFf : ∀ f, s'.functionShortestPath f
      = if i = KModule.entry f then bestReturn km s i else s.functionShortestPath f := by
    intro f
    rw [hF]
    by_cases hentry : i = KModule.entry i.fn
    · rw [if_pos hentry, Function.update_apply]
      by_cases hf : f = i.fn
      · have hlt := hfits hentry hthrough
        rw [if_pos hf, if_pos (hf ▸ hentry), Nat.mod_eq_of_lt (by omega)]
      · rw [if_neg hf, if_neg fun hif => hf (congrArg Position.fn hif).symm]
    · rw [if_neg hentry, if_neg fun hif => hentry (by rw [hif]; rfl)]
  have hold : ∀ f, i = KModule.entry f → km.isDeclaration f = false :=
    fun f hf => by rw [hf] at hdefined; exact hdefined
  refine ⟨⟨?_, ?_, ?_, ?_, ?_, ?_⟩, ?_, ?_⟩
  · rintro (j | f) hne
    · have heq : s'.value (.inl j) = _ := hDi j
      rw [heq] at hne ⊢
      split at hne
      next hj =>
        rw [if_pos hj, hj]
        exact hcosts hne
      next hj =>
        rw [if_neg hj]
        exact hs.costs (.inl j) hne
    · have heq : s'.value (.inr f) = _ := hFf f
      rw [heq] at hne ⊢
      split at hne
      next hf =>
        rw [if_pos hf]
        rw [← Nat.zero_add (bestReturn km s i)]
        exact .step (.function (hold f hf)) (hf ▸ hcosts hne)
      next hf =>
        rw [if_neg hf]
        exact hs.costs (.inr f) hne
  · intro f
    rw [hFf]
    split
    next hf => exact hfits (by rw [hf]; rfl) hthrough
    next => exact hs.small f
  · intro j hj
    rw [hDi]
    split
    next heq => exact hwithin.trans (heq ▸ hs.here j hj)
    next => exact hs.here j hj
  · intro f hf
    rw [hFf, if_neg fun h => by rw [hold f h] at hf; cases hf]
    exact hs.declared f hf
  · intro f hf
    rw [hFf, hDi]
    by_cases hentry : i = KModule.entry f
    · rw [if_pos hentry, if_pos hentry.symm]
      exact Or.inl rfl
    · rw [if_neg hentry, if_neg fun h => hentry h.symm]
      exact hs.entry f hf
  · intro j hj
    rw [hDi] at hj
    split at hj
    next heq => exact heq ▸ hi
    next => exact hs.inside j hj
  · rintro (j | f)
    · change Within (s'.minDistToReturn j) (s.minDistToReturn j)
      rw [hDi]
      split
      next heq => exact heq ▸ hwithin
      next => exact Within.refl _
    · change Within (s'.functionShortestPath f) (s.functionShortestPath f)
      rw [hFf]
      split
      next heq =>
        rcases hs.entry f (hold f heq) with hf | ⟨hf, -⟩
        · rw [hf]
          exact heq ▸ hwithin
        · rw [hf]
          exact fun h => absurd rfl h
      next => exact Within.refl _
  · rcases hchange with hne | ⟨hentry, hne⟩
    · refine ⟨.inl i, by simpa using hi, ?_⟩
      change s'.minDistToReturn i ≠ s.minDistToReturn i
      rwa [hDi, if_pos rfl]
    · refine ⟨.inr i.fn, by simpa using ⟨i, hi, rfl⟩, ?_⟩
      change s'.functionShortestPath i.fn ≠ s.functionShortestPath i.fn
      rw [hFf, if_pos hentry]
      exact hne.symm

end Step

/-- In a state in which no visit finds anything to do the table holds the distances. -/
theorem ReturnTables.Inv.isDistance {s : ReturnTables} (hs : s.Inv km)
    (hstable : ∀ i ∈ km.instructions, StatsTracker.returnStep km s i = none) (n : Position ⊕ ℕ) :
    IsDistance (returnRules km) n (s.value n) := by
  have hbest : ∀ i ∈ km.instructions, bestThrough km s.functionShortestPath i ≠ 0 →
      bestReturn km s i = s.minDistToReturn i ∧
        (i = KModule.entry i.fn → s.functionShortestPath i.fn = bestReturn km s i) := by
    intro i hi hthrough
    have hstep := hstable i hi
    unfold StatsTracker.returnStep at hstep
    dsimp only at hstep
    split at hstep
    next => cases hstep
    next hc =>
      push Not at hc
      exact ⟨(hc hthrough).1, (hc hthrough).2⟩
  have hsucc : ∀ i ∈ km.instructions, ∀ j ∈ km.getSuccs i, s.minDistToReturn j ≠ 0 →
      bestThrough km s.functionShortestPath i ≠ 0 → s.minDistToReturn i ≠ 0 ∧
        s.minDistToReturn i ≤ bestThrough km s.functionShortestPath i + s.minDistToReturn j := by
    intro i hi j hj hj0 hthrough
    have hle := foldl_relax_le (bestThrough km s.functionShortestPath i) s.minDistToReturn hj hj0
      (s.minDistToReturn i)
    rw [← (hbest i hi hthrough).1]
    exact hle
  refine isDistance_of_closed hs.costs ?_ n
  intro r hr hpremises
  cases hr with
  | @here i hret => exact hs.here i hret one_ne_zero
  | @next i j hi hcall hj =>
      have hj0 : s.minDistToReturn j ≠ 0 := hpremises (.inl j) List.mem_cons_self
      have hthrough : bestThrough km s.functionShortestPath i = 1 := bestThrough_none hcall
      have hle := hsucc i hi j hj hj0 (by omega)
      rw [hthrough] at hle
      exact hle
  | @call i j targets f hi hcall hf hj =>
      have hf0 : s.functionShortestPath f ≠ 0 := hpremises (.inr f) List.mem_cons_self
      have hj0 : s.minDistToReturn j ≠ 0 :=
        hpremises (.inl j) (List.mem_cons_of_mem _ List.mem_cons_self)
      obtain ⟨hthrough, hle⟩ := bestThrough_le hs.small hcall hf hf0
      obtain ⟨hne, hle'⟩ := hsucc i hi j hj hj0 hthrough
      refine ⟨hne, ?_⟩
      change s.minDistToReturn i ≤ 1 + (s.functionShortestPath f + (s.minDistToReturn j + 0))
      omega
  | @declaration f fn hf hnil hreturns =>
      have heq : s.functionShortestPath f = 1 := by
        rw [hs.declared f (KModule.isDeclaration_of_nil hf hnil)]
        simp [initialTables, hf, hnil, hreturns]
      exact ⟨fun h => one_ne_zero (heq.symm.trans h), le_of_eq heq⟩
  | @function f hdefined =>
      have hD0 : s.minDistToReturn (KModule.entry f) ≠ 0 :=
        hpremises (.inl (KModule.entry f)) List.mem_cons_self
      have heq : s.functionShortestPath f = s.minDistToReturn (KModule.entry f) := by
        rcases hs.entry f hdefined with h | ⟨-, hcall⟩
        · exact h
        · have hi := hs.inside _ hD0
          obtain ⟨hsame, hpath⟩ := hbest _ hi (by rw [bestThrough_none hcall]; exact one_ne_zero)
          rw [← hsame]
          exact hpath rfl
      refine ⟨fun h => hD0 (heq.symm.trans h), ?_⟩
      change s.functionShortestPath f ≤ 0 + (s.minDistToReturn (KModule.entry f) + 0)
      omega

/-- Where no path is cut the loop ends with the distances. -/
theorem PathsFit.computeReturn (h : PathsFit km) : ∃ fuel s, computeReturn km fuel = some s ∧
    (∀ f, s.functionShortestPath f < 2 ^ 32 - 1) ∧
      ∀ n, IsDistance (returnRules km) n (s.value n) := by
  obtain ⟨fuel, s, hs, hinv, hstable⟩ := exists_untilStable
    (List.finite_toSet (km.instructions.map Sum.inl ++ km.instructions.map fun i => Sum.inr i.fn))
    ReturnTables.value (ReturnTables.Inv km) initialTables_inv fun t i rest _ ht hi hinv hstep =>
      hinv.returnStep (List.mem_reverse.mp hi) (h t i rest ht) hstep
  exact ⟨fuel, s, hs, hinv.small, hinv.isDistance fun i hi => hstable i (List.mem_reverse.mpr hi)⟩

/-! ## The loop for `minDistToUncovered` -/

section Uncovered

variable {F : ℕ → ℕ} {uncovered : Position → Bool} {D D' : Position → ℕ} {i : Position}

variable (km uncovered) in
/-- What holds of the table during the loop. -/
structure UncoveredInv (D : Position → ℕ) : Prop where
  costs : ∀ n, D n ≠ 0 → Costs (uncoveredRules km uncovered) n (D n)
  here : ∀ i ∈ km.instructions, uncovered i = true → Within (D i) 1

theorem bestUncovered_within : Within (bestUncovered km F D i) (D i) := by
  unfold bestUncovered
  dsimp only
  split
  · exact foldl_relax_within _ _ _ _
  · exact (foldl_relax_within _ _ _ _).trans (foldl_relax_within _ _ _ _)

theorem bestUncovered_le_callee {targets : List ℕ} (hcall : km.callTargets i = some targets) {f : ℕ}
    (hf : f ∈ targets) (hne : calleeDist km D f ≠ 0) :
    bestUncovered km F D i ≠ 0 ∧ bestUncovered km F D i ≤ 1 + calleeDist km D f := by
  unfold bestUncovered
  dsimp only
  rw [hcall]
  obtain ⟨hfirst, hle⟩ := foldl_relax_le 1 (calleeDist km D) hf hne (D i)
  split
  · exact ⟨hfirst, hle⟩
  · obtain ⟨hne', hle'⟩ := foldl_relax_within (bestThrough km F i) D (km.getSuccs i) _ hfirst
    exact ⟨hne', hle'.trans hle⟩

theorem bestUncovered_le_succ {j : Position} (hthrough : bestThrough km F i ≠ 0)
    (hj : j ∈ km.getSuccs i) (hne : D j ≠ 0) :
    bestUncovered km F D i ≠ 0 ∧ bestUncovered km F D i ≤ bestThrough km F i + D j := by
  unfold bestUncovered
  dsimp only
  rw [if_neg hthrough]
  exact foldl_relax_le (bestThrough km F i) D hj hne _

variable (km F D i) in
theorem bestUncovered_cases : bestUncovered km F D i = D i ∨
    (∃ targets f, km.callTargets i = some targets ∧ f ∈ targets ∧ calleeDist km D f ≠ 0 ∧
      bestUncovered km F D i = 1 + calleeDist km D f) ∨
    ∃ j ∈ km.getSuccs i, bestThrough km F i ≠ 0 ∧ D j ≠ 0 ∧
      bestUncovered km F D i = bestThrough km F i + D j := by
  have hcallees : ∀ b, ((km.callTargets i).getD []).foldl
      (fun best f => relax 1 best (calleeDist km D f)) (D i) = b → b = D i ∨
        ∃ targets f, km.callTargets i = some targets ∧ f ∈ targets ∧ calleeDist km D f ≠ 0 ∧
          b = 1 + calleeDist km D f := by
    rintro b rfl
    rcases foldl_relax_eq 1 (calleeDist km D) ((km.callTargets i).getD []) (D i)
      with h | ⟨f, hf, h, hne⟩
    · exact Or.inl h
    · cases hcall : km.callTargets i with
      | none => simp [hcall] at hf
      | some targets =>
          rw [hcall] at hf h
          exact Or.inr ⟨targets, f, rfl, hf, hne, h⟩
  unfold bestUncovered
  dsimp only
  split
  next =>
    rcases hcallees _ rfl with h | h
    · exact Or.inl h
    · exact Or.inr (Or.inl h)
  next hthrough =>
    rcases foldl_relax_eq (bestThrough km F i) D (km.getSuccs i)
      (((km.callTargets i).getD []).foldl (fun best f => relax 1 best (calleeDist km D f)) (D i))
      with h | ⟨j, hj, h, hne⟩
    · rcases hcallees _ h.symm with h | h
      · exact Or.inl h
      · exact Or.inr (Or.inl h)
    · exact Or.inr (Or.inr ⟨j, hj, hthrough, hne, h⟩)

theorem calleeDist_of_defined {f : ℕ} (h : km.isDeclaration f = false) :
    calleeDist km D f = D (KModule.entry f) := by
  rw [calleeDist, h]
  rfl

theorem defined_of_calleeDist {f : ℕ} (h : calleeDist km D f ≠ 0) : km.isDeclaration f = false := by
  by_contra hdecl
  exact h (if_pos (Bool.not_eq_false _ ▸ hdecl))

variable (hsmall : ∀ f, F f < 2 ^ 32 - 1)
  (hF : ∀ f, IsDistance (returnRules km) (.inr f) (F f))

include hsmall hF in
theorem UncoveredInv.bestUncovered_costs (hD : UncoveredInv km uncovered D)
    (hi : i ∈ km.instructions) (hne : bestUncovered km F D i ≠ 0) :
    Costs (uncoveredRules km uncovered) i (bestUncovered km F D i) := by
  rcases bestUncovered_cases km F D i
    with h | ⟨targets, f, hcall, hf, hcallee, h⟩ | ⟨j, hj, hthrough, hj0, h⟩
  · rw [h] at hne ⊢
    exact hD.costs i hne
  · have hdefined := defined_of_calleeDist hcallee
    rw [h, calleeDist_of_defined hdefined]
    rw [calleeDist_of_defined hdefined] at hcallee
    exact .step (.callee hi hcall hf hdefined) (hD.costs _ hcallee)
  · rw [h]
    rcases bestThrough_cases hsmall hthrough with ⟨hcall, hone⟩ | ⟨targets, f, hcall, hf, hf0, hcost⟩
    · rw [hone]
      exact .step (.next hi hcall hj) (hD.costs j hj0)
    · rw [hcost]
      exact .step (.call hi hcall hf hj (hF f) hf0) (hD.costs j hj0)

include hsmall hF in
theorem UncoveredInv.uncoveredStep (hD : UncoveredInv km uncovered D) (hi : i ∈ km.instructions)
    (h : uncoveredStep km F D i = some D') :
    UncoveredInv km uncovered D' ∧ Lowers {n | n ∈ km.instructions} D' D := by
  have hcosts := hD.bestUncovered_costs hsmall hF hi
  unfold StatsTracker.uncoveredStep at h
  split at h
  next hchange =>
    obtain rfl := Option.some.inj h
    have hwithin : ∀ j, Within (Function.update D i (bestUncovered km F D i) j) (D j) := by
      intro j
      rw [Function.update_apply]
      split
      next heq => exact heq ▸ bestUncovered_within
      next => exact Within.refl _
    refine ⟨⟨fun n hne => ?_, fun j hj hu => (hwithin j).trans (hD.here j hj hu)⟩, hwithin, i, hi, ?_⟩
    · rw [Function.update_apply] at hne ⊢
      split at hne
      next hn =>
        rw [if_pos hn, hn]
        exact hcosts hne
      next hn =>
        rw [if_neg hn]
        exact hD.costs n hne
    · rwa [Function.update_self]
  next => cases h

include hsmall hF in
theorem UncoveredInv.isDistance (hD : UncoveredInv km uncovered D)
    (hstable : ∀ i ∈ km.instructions, StatsTracker.uncoveredStep km F D i = none) (n : Position) :
    IsDistance (uncoveredRules km uncovered) n (D n) := by
  have hbest : ∀ i ∈ km.instructions, bestUncovered km F D i = D i := by
    intro i hi
    by_contra hne
    have hstep := hstable i hi
    rw [StatsTracker.uncoveredStep, if_pos hne] at hstep
    cases hstep
  refine isDistance_of_closed hD.costs ?_ n
  intro r hr hpremises
  cases hr with
  | @here i hi hu => exact hD.here i hi hu one_ne_zero
  | @next i j hi hcall hj =>
      have hthrough := bestThrough_none (F := F) hcall
      have hj0 : D j ≠ 0 := hpremises j List.mem_cons_self
      have hle := bestUncovered_le_succ (by rw [hthrough]; exact one_ne_zero) hj hj0
      rw [hbest i hi, hthrough] at hle
      exact hle
  | @call i j targets f d hi hcall hf hj hd hd0 =>
      obtain rfl := (hF f).unique hd
      obtain ⟨hthrough, hcost⟩ := bestThrough_le hsmall hcall hf hd0
      obtain ⟨hne, hle⟩ := bestUncovered_le_succ hthrough hj (hpremises j List.mem_cons_self)
      rw [hbest i hi] at hne hle
      refine ⟨hne, hle.trans ?_⟩
      change bestThrough km F i + D j ≤ 1 + F f + (D j + 0)
      omega
  | @callee i targets f hi hcall hf hdefined =>
      have hentry : calleeDist km D f ≠ 0 := by
        rw [calleeDist_of_defined hdefined]
        exact hpremises (KModule.entry f) List.mem_cons_self
      have hle := bestUncovered_le_callee (F := F) hcall hf hentry
      rw [hbest i hi, calleeDist_of_defined hdefined] at hle
      exact hle

include hsmall hF in
theorem computeUncovered_isDistance (uncovered : Position → Bool) :
    ∃ fuel D, computeUncovered km F uncovered fuel = some D ∧
      ∀ n, IsDistance (uncoveredRules km uncovered) n (D n) := by
  have hinitial : UncoveredInv km uncovered
      fun i => if i ∈ km.instructions then (uncovered i).toNat else 0 := by
    refine ⟨fun n hne => ?_, fun i hi hu => ?_⟩
    · by_cases hn : n ∈ km.instructions
      · rw [if_pos hn] at hne ⊢
        have hu : uncovered n = true := by
          by_contra hu
          simp [hu] at hne
        rw [hu]
        exact .start (.here hn hu)
      · rw [if_neg hn] at hne
        exact absurd rfl hne
    · rw [if_pos hi, hu]
      exact Within.refl 1
  obtain ⟨fuel, D, hD, hinv, hstable⟩ := exists_untilStable (List.finite_toSet km.instructions) id
    (UncoveredInv km uncovered) hinitial fun t i _ _ _ hi hinv hstep =>
      hinv.uncoveredStep hsmall hF (List.mem_reverse.mp hi) hstep
  exact ⟨fuel, D, hD, hinv.isDistance hsmall hF fun i hi => hstable i (List.mem_reverse.mpr hi)⟩

end Uncovered

/-! ## When the distances are right -/

variable (km) in
/-- Both loops end, the second one for every set of uncovered instructions, with the least costs. -/
def DistancesRight : Prop := ∃ fuel s, computeReturn km fuel = some s ∧
  (∀ i ∈ km.instructions, IsDistance (returnRules km) (.inl i) (s.minDistToReturn i)) ∧
  ∀ uncovered : Position → Bool, ∃ fuel' D,
    computeUncovered km s.functionShortestPath uncovered fuel' = some D ∧
      ∀ i ∈ km.instructions, IsDistance (uncoveredRules km uncovered) i (D i)

/-- When the loop ends, the distance from the entry of a function is one that was not cut. -/
theorem computeReturn_lt {fuel : ℕ} {s : ReturnTables} (hs : computeReturn km fuel = some s)
    {f : ℕ} (hentry : KModule.entry f ∈ km.instructions)
    (hcall : km.callTargets (KModule.entry f) = none) :
    s.minDistToReturn (KModule.entry f) < 2 ^ 32 := by
  obtain ⟨hswept, hstable⟩ := untilStable_stable .start hs
  have hshort : s.functionShortestPath f < 2 ^ 32 := by
    refine (hswept.keeps (fun s => s.functionShortestPath f < 2 ^ 32) ?_ ?_).1
    · rcases initialTables_path km f with h | ⟨_, _, _, _, h⟩ <;> rw [h] <;> decide
    · intro t i rest t' _ _ ht hstep
      obtain ⟨-, -, -, hF⟩ := returnStep_eq_some hstep
      rw [hF]
      split
      next =>
        rw [Function.update_apply]
        split
        next => exact Nat.mod_lt _ (by decide)
        next => exact ht
      next => exact ht
  have hstep := hstable _ (List.mem_reverse.mpr hentry)
  unfold returnStep at hstep
  dsimp only at hstep
  split at hstep
  next => cases hstep
  next hc =>
    push Not at hc
    obtain ⟨hsame, hpath⟩ := hc (by rw [bestThrough_none hcall]; exact one_ne_zero)
    have hpath : s.functionShortestPath f = bestReturn km s (KModule.entry f) := hpath rfl
    rw [← hsame, ← hpath]
    exact hshort

/-- A module whose only function returns at once. -/
def returning : KModule := ⟨[⟨[⟨[.ReturnInst], []⟩], false⟩], []⟩

/-- The first function returns at once, each other one calls the one in front of it twice. -/
def body : ℕ → List Instruction
  | 0 => [.ReturnInst]
  | f + 1 => [.other, .CallSite (.direct f), .CallSite (.direct f), .ReturnInst]

def chain (n : ℕ) : KModule where
  functions := (List.range (n + 1)).map fun f => ⟨[⟨body f, []⟩], false⟩
  escapingFunctions := []

section Chain

variable {n : ℕ} {i j : Position}

variable {f idx : ℕ} {inst : Instruction}

theorem chain_function {fn : Function} :
    (chain n).functions[f]? = some fn ↔ f ≤ n ∧ (⟨[⟨body f, []⟩], false⟩ : Function) = fn := by
  simp only [chain, List.getElem?_map, Option.map_eq_some_iff, List.getElem?_eq_some_iff,
    List.length_range, List.getElem_range]
  constructor
  · rintro ⟨g, ⟨hg, rfl⟩, h⟩
    exact ⟨by omega, h⟩
  · rintro ⟨hf, h⟩
    exact ⟨f, ⟨by omega, rfl⟩, h⟩

theorem chain_block {block : BasicBlock} :
    (chain n).block i = some block ↔ i.fn ≤ n ∧ i.bb = 0 ∧ (⟨body i.fn, []⟩ : BasicBlock) = block := by
  simp only [KModule.block, Option.bind_eq_bind, Option.bind_eq_some_iff, chain_function]
  constructor
  · rintro ⟨fn, ⟨hf, rfl⟩, hblock⟩
    obtain ⟨hbb, rfl⟩ := List.getElem?_eq_some_iff.mp hblock
    have hbb : i.bb = 0 := by simpa using hbb
    simp [hf, hbb]
  · rintro ⟨hf, hbb, rfl⟩
    exact ⟨_, ⟨hf, rfl⟩, by rw [hbb]; rfl⟩

theorem chain_instruction :
    (chain n).instruction i = some inst ↔ i.fn ≤ n ∧ i.bb = 0 ∧ (body i.fn)[i.idx]? = some inst := by
  simp only [KModule.instruction, Option.bind_eq_bind, Option.bind_eq_some_iff, chain_block]
  constructor
  · rintro ⟨block, ⟨hf, hbb, rfl⟩, h⟩
    exact ⟨hf, hbb, h⟩
  · rintro ⟨hf, hbb, h⟩
    exact ⟨_, ⟨hf, hbb, rfl⟩, h⟩

theorem chain_getSuccs (h : j ∈ (chain n).getSuccs i) :
    j = ⟨i.fn, i.bb, i.idx + 1⟩ ∧ i.idx + 1 ≠ (body i.fn).length := by
  unfold KModule.getSuccs at h
  cases hblock : (chain n).block i with
  | none => simp [hblock] at h
  | some block =>
      obtain ⟨-, -, rfl⟩ := chain_block.mp hblock
      rw [hblock] at h
      dsimp only at h
      split at h
      next => cases h
      next hlast => exact ⟨List.mem_singleton.mp h, hlast⟩

theorem chain_cases (h : (chain n).instruction i = some inst) :
    i = ⟨0, 0, 0⟩ ∧ inst = .ReturnInst ∨ ∃ f, i = ⟨f + 1, 0, 0⟩ ∧ inst = .other ∨
      (i = ⟨f + 1, 0, 1⟩ ∨ i = ⟨f + 1, 0, 2⟩) ∧ inst = .CallSite (.direct f) ∨
      i = ⟨f + 1, 0, 3⟩ ∧ inst = .ReturnInst := by
  obtain ⟨-, hbb, hidx⟩ := chain_instruction.mp h
  obtain ⟨f, bb, idx⟩ := i
  obtain rfl : bb = 0 := hbb
  cases f with
  | zero =>
      rcases idx with _ | idx
      · exact Or.inl ⟨rfl, (Option.some.inj hidx).symm⟩
      · simp [body] at hidx
  | succ f =>
      refine Or.inr ⟨f, ?_⟩
      rcases idx with _ | _ | _ | _ | idx
      · exact Or.inl ⟨rfl, (Option.some.inj hidx).symm⟩
      · exact Or.inr (Or.inl ⟨Or.inl rfl, (Option.some.inj hidx).symm⟩)
      · exact Or.inr (Or.inl ⟨Or.inr rfl, (Option.some.inj hidx).symm⟩)
      · exact Or.inr (Or.inr ⟨rfl, (Option.some.inj hidx).symm⟩)
      · simp [body] at hidx

/-- What the ways to a return cost at least: a function costs twice as much as the one it calls. -/
def chainBound : Position ⊕ ℕ → ℕ
  | .inl i => if i.idx ≤ 1 then 2 ^ i.fn else if i.idx = 2 then 2 ^ (i.fn - 1) else 0
  | .inr f => 2 ^ f

theorem chainBound_le {c : ℕ} {node : Position ⊕ ℕ} (h : Costs (returnRules (chain n)) node c) :
    chainBound node ≤ c := by
  refine h.ge fun r hr => ?_
  cases hr with
  | @here i hret =>
      rcases chain_cases hret with ⟨rfl, -⟩ | ⟨f, ⟨-, h⟩ | ⟨-, h⟩ | ⟨rfl, -⟩⟩
      · decide
      · cases h
      · cases h
      · exact Nat.zero_le _
  | @next i j hi hcall hj =>
      obtain ⟨rfl, hlast⟩ := chain_getSuccs hj
      obtain ⟨inst, hinst⟩ := Option.ne_none_iff_exists'.mp (KModule.mem_instructions.mp hi)
      rcases chain_cases hinst with ⟨rfl, -⟩ | ⟨f, ⟨rfl, -⟩ | ⟨-, rfl⟩ | ⟨rfl, -⟩⟩
      · exact absurd rfl hlast
      · simp [chainBound]
      · rw [KModule.callTargets, hinst] at hcall
        cases hcall
      · exact absurd rfl hlast
  | @call i j targets f hi hcall hf hj =>
      obtain ⟨rfl, -⟩ := chain_getSuccs hj
      obtain ⟨inst, hinst⟩ := Option.ne_none_iff_exists'.mp (KModule.mem_instructions.mp hi)
      rw [KModule.callTargets, hinst] at hcall
      rcases chain_cases hinst with ⟨-, rfl⟩ | ⟨g, ⟨-, rfl⟩ | ⟨hi, rfl⟩ | ⟨-, rfl⟩⟩
      · cases hcall
      · cases hcall
      · obtain rfl := Option.some.inj hcall
        obtain rfl := List.mem_singleton.mp hf
        rcases hi with rfl | rfl
        · simp [chainBound]
          omega
        · simp [chainBound]
      · cases hcall
  | @declaration f fn hf hnil hreturns =>
      obtain ⟨-, rfl⟩ := chain_function.mp hf
      cases hnil
  | @function f hdefined => simp [chainBound, KModule.entry]

theorem chain_mem (hf : f ≤ n) (hidx : idx < (body f).length) :
    (⟨f, 0, idx⟩ : Position) ∈ (chain n).instructions := by
  rw [KModule.mem_instructions]
  rw [chain_instruction.mpr ⟨hf, rfl, List.getElem?_eq_getElem hidx⟩]
  exact Option.some_ne_none _

theorem chain_next (hf : f ≤ n) (hidx : idx + 1 < (body f).length) :
    (⟨f, 0, idx + 1⟩ : Position) ∈ (chain n).getSuccs ⟨f, 0, idx⟩ := by
  rw [KModule.getSuccs, chain_block.mpr ⟨hf, rfl, rfl⟩]
  dsimp only
  rw [if_neg (by omega)]
  exact List.mem_singleton_self _

theorem chain_defined (hf : f ≤ n) : (chain n).isDeclaration f = false := by
  rw [KModule.isDeclaration, chain_function.mpr ⟨hf, rfl⟩]
  rfl

/-- Each function of the chain has a way to its return. -/
theorem chain_costs (hf : f ≤ n) :
    ∃ c, Costs (returnRules (chain n)) (.inl (KModule.entry f)) c := by
  induction f with
  | zero =>
      exact ⟨1, .start (.here (chain_instruction.mpr ⟨hf, rfl, rfl⟩))⟩
  | succ f ih =>
      obtain ⟨c, hc⟩ := ih (by omega)
      have hcallee : Costs (returnRules (chain n)) (.inr f) (0 + c) :=
        .step (.function (chain_defined (by omega))) hc
      have hret : Costs (returnRules (chain n)) (.inl ⟨f + 1, 0, 3⟩) 1 :=
        .start (.here (chain_instruction.mpr ⟨hf, rfl, rfl⟩))
      have hcall : ∀ idx, idx = 1 ∨ idx = 2 → ∀ d,
          Costs (returnRules (chain n)) (.inl ⟨f + 1, 0, idx + 1⟩) d →
          Costs (returnRules (chain n)) (.inl ⟨f + 1, 0, idx⟩) (1 + (0 + c + d)) := by
        intro idx hidx d hd
        have hlt : idx + 1 < (body (f + 1)).length := by
          rcases hidx with rfl | rfl <;> simp [body]
        have htargets : (chain n).callTargets ⟨f + 1, 0, idx⟩ = some [f] := by
          rw [KModule.callTargets]
          rcases hidx with rfl | rfl <;> rw [chain_instruction.mpr ⟨hf, rfl, rfl⟩]
        exact .join (.call (chain_mem hf (by omega)) htargets List.mem_cons_self (chain_next hf hlt))
          Sum.inr_ne_inl hcallee hd
      have hnone : (chain n).callTargets (KModule.entry (f + 1)) = none := by
        rw [KModule.callTargets, KModule.entry, chain_instruction.mpr ⟨hf, rfl, rfl⟩]
      exact ⟨_, .step (.next (chain_mem hf (by simp [body])) hnone (chain_next hf (by simp [body])))
        (hcall 1 (Or.inl rfl) _ (hcall 2 (Or.inr rfl) 1 hret))⟩

end Chain

end StatsTracker

end Xklee
