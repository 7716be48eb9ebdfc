/-
Calls through a function pointer: the branch of `Instruction::Call` in
`Executor::executeInstruction` of `lib/Core/Executor.cpp` for which `getTargetFunction` finds
no function.

The loop asks the solver for a value of the pointer, forks at it, lets the state on the true
side enter the function of that address, and goes on with the other one. For an address that
is no function it terminates a state, the first time only, and the state that it names is the
one that the instruction was executed with, whatever `fork` has made of it by then.

Entering a function changes the stack of a state, which nothing here looks at: `executeCall`
is recorded with the state and the address.
-/
import Xklee.Core.MemoryExploration
import Xklee.Core.Switch
import Xklee.Solver.ExactSolver

set_option autoImplicit false

namespace Xklee

/-! ## The loop -/

/-- The executor, the states on the true sides with the functions that they entered, and the
ids of the states that `terminateStateOnExecError` was called with. -/
structure IndirectCall where
  executor : Executor
  states : List (ExecutionState × Option ℕ)
  errors : List ℕ
  hasInvalid : Bool

namespace IndirectCall

/-- What is done with `*res.first`. -/
def enter (c : IndirectCall) (state : ExecutionState) (legalFunctions : ℕ → Bool)
    (first : ExecutionState) (addr : ℕ) : IndirectCall :=
  if legalFunctions addr then { c with states := c.states ++ [(first, some addr)] }
  else if c.hasInvalid then { c with states := c.states ++ [(first, none)] }
  else
    -- `terminateStateOnExecError(state, "invalid function pointer")`
    { executor := c.executor.terminateState state
      states := c.states ++ [(first, none)]
      errors := c.errors ++ [state.id]
      hasInvalid := true }

section Loop

variable (state : ExecutionState) (v : Expr) (legalFunctions : ℕ → Bool) (chances : ℕ → ForkChance)

/-- The loop on `free`, with so many rounds at most. `getZExtValue` asserts that the value fits
64 bits. -/
def loop : ℕ → ℕ → IndirectCall → ExecutionState → Option IndirectCall
  | 0, _, _, _ => none
  | rounds + 1, n, c, free => do
      let value ← c.executor.solver.getValue free.constraints v
      let res ← c.executor.fork free (EqExpr.create v (.Constant value)) true
        (chances n).atStaticLimit (chances n).getBool
      let c := { c with executor := res.executor }
      let c ← match res.trueState with
        | none => some c
        | some first =>
            if value.width ≤ 64 then some (c.enter state legalFunctions first value.toNat)
            else none
      match res.falseState with
      | none => some c
      | some free => loop rounds (n + 1) c free

end Loop

end IndirectCall

/-- The call of `state` through the pointer `v`. -/
def Executor.executeIndirectCall (ex : Executor) (state : ExecutionState) (v : Expr)
    (legalFunctions : ℕ → Bool) (chances : ℕ → ForkChance) (rounds : ℕ) : Option IndirectCall :=
  IndirectCall.loop state v legalFunctions chances rounds 0 ⟨ex, [], [], false⟩ state

/-! ## What the call is for -/

namespace IndirectCall

open Switch (Possible)

/-- The states that have entered a function and are not terminated. -/
def survivorsIn (c : IndirectCall) (addr : ℕ) : List ExecutionState :=
  (c.states.filter fun x => x.2 = some addr ∧ x.1.id ∉ c.errors).map Prod.fst

/-- For each possible address of a function one state has entered it, with the assignments for
which the pointer has that value; the states with another value are terminated, and no state
that has entered a function is. -/
structure Exhaustive (c : IndirectCall) (state : ExecutionState) (v : Expr)
    (legalFunctions : ℕ → Bool) : Prop where
  calls : ∀ value, Possible state.constraints v value → legalFunctions value.toNat = true →
    ∃ s, c.survivorsIn value.toNat = [s]
      ∧ ∀ σ, Satisfies σ s.constraints ↔ Satisfies σ state.constraints ∧ v.eval σ = value
  invalid : ∀ x ∈ c.states, ∀ value, (∀ σ, Satisfies σ x.1.constraints → v.eval σ = value) →
    legalFunctions value.toNat = false → x.1.id ∈ c.errors
  spared : ∀ x ∈ c.states, x.2 ≠ none → x.1.id ∉ c.errors

end IndirectCall

/-! ## A fork of a free executor -/

/-- The constraints that `addConstraint` leaves in a state without seeds. -/
def constraintsWith (constraints : List Expr) (condition : Expr) : Option (List Expr) :=
  match condition with
  | .Constant CE => if CE.isTrue then some constraints else none
  | _ => ConstraintManager.addConstraint constraints condition

namespace Executor

section Fork

variable {ex ex' : Executor} {state state' : ExecutionState} {condition : Expr} {getBool : Bool}

theorem constraintsWith_of_symbolic {constraints : List Expr}
    (h : ∀ CE, condition = .Constant CE → False) :
    constraintsWith constraints condition = ConstraintManager.addConstraint constraints condition := by
  cases condition with
  | Constant CE => exact (h CE rfl).elim
  | _ => rfl

theorem addConstraint_constraints (h : ex.addConstraint state condition = some (ex', state')) :
    constraintsWith state.constraints condition = some state'.constraints := by
  unfold addConstraint at h
  split at h
  next CE =>
    split at h
    next htrue =>
      obtain ⟨-, rfl⟩ := Prod.mk.inj (Option.some.inj h)
      exact if_pos htrue
    next => exact absurd h (by simp)
  next hconst =>
    simp only [bind, Option.bind_eq_some_iff] at h
    obtain ⟨seeds, -, constraints, hadd, heq⟩ := h
    obtain ⟨-, rfl⟩ := Prod.mk.inj (Option.some.inj heq)
    rw [constraintsWith_of_symbolic hconst]
    exact hadd

/-- The constraints of the false side of a split. -/
theorem splitState_falseState {r : ForkResult}
    (h : ex.splitState state condition getBool = some r) {f : ExecutionState}
    (hf : r.falseState = some f) :
    constraintsWith state.constraints condition.createIsZero = some f.constraints := by
  simp only [splitState, bind, Option.bind_eq_some_iff] at h
  obtain ⟨ex₁, -, ⟨ex₂, t⟩, -, ⟨ex₃, f'⟩, hadd, hr⟩ := h
  have hconstraints := addConstraint_constraints hadd
  have hff' : f' = f := by
    dsimp only at hr
    split at hr
    next =>
      obtain rfl := Option.some.inj hr
      exact absurd hf (by simp)
    next =>
      obtain rfl := Option.some.inj hr
      exact Option.some.inj hf
  subst hff'
  rw [← hconstraints]
  split <;> rfl

/-- Whether a split gives the new state to the true side. -/
def swaps (ex : Executor) (getBool : Bool) : Bool := ex.RandomizeFork && getBool

/-- What a fork at a possible condition returns: the state itself, when the condition must
hold; or two states, of which one is the state itself and the other is new. -/
inductive Forks (ex : Executor) (state : ExecutionState) (condition : Expr) (getBool : Bool) :
    ForkResult → Prop
  | decided (hvalid : ex.solver.evaluate state.constraints condition = some .True)
      (hall : ∀ σ, Satisfies σ state.constraints → condition.Holds σ) :
      Forks ex state condition getBool ⟨ex, some state, none⟩
  | split {t f : ExecutionState}
      (hunknown : ex.solver.evaluate state.constraints condition = some .Unknown)
      (ht : ∀ σ, Satisfies σ t.constraints ↔ Satisfies σ state.constraints ∧ condition.Holds σ)
      (hf : ∀ σ, Satisfies σ f.constraints ↔ Satisfies σ state.constraints ∧ ¬condition.Holds σ)
      (htid : t.id = if ex.swaps getBool then ex.stateID + 1 else state.id)
      (hfid : f.id = if ex.swaps getBool then state.id else ex.stateID + 1)
      (hfcs : constraintsWith state.constraints condition.createIsZero = some f.constraints)
      (hfbool : ∀ c ∈ f.constraints, c.IsBool)
      (hfopen : Open f) : Forks ex state condition getBool ⟨ex.addState, some t, some f⟩

theorem Free.forks (h : ex.Free) (hsolver : ex.solver.Reliable state.constraints)
    (he : condition.IsBool) (hstate : state.forkDisabled = false) (getBool : Bool)
    (hpossible : ∃ σ, Satisfies σ state.constraints ∧ condition.Holds σ) :
    ∃ r, ex.fork state condition true false getBool = some r
      ∧ Forks ex state condition getBool r := by
  obtain ⟨res, hres, hfork⟩ := h.fork_eq hsolver he hstate getBool
  have hvalidity := TimingSolver.evaluate_sound hsolver.correct hsolver.satisfiable hsolver.isBool he
    hres
  rw [hfork]
  cases res with
  | True => exact ⟨_, rfl, .decided hres hvalidity⟩
  | False =>
    obtain ⟨σ, hσ, hholds⟩ := hpossible
    exact absurd hholds (hvalidity σ hσ)
  | Unknown =>
    obtain ⟨htrue, τ, hτ, hd⟩ := hvalidity
    obtain ⟨t, f, hsplit, -, hfd⟩ := @splitState_unlimited ex state condition getBool
      hsolver.isBool he h.seedMap h.MaxDepth htrue ⟨τ, hτ, hd⟩
    obtain ⟨-, -, ⟨hno, -⟩ | ⟨t', f', ht, hf, htid, hfid, -, hfbool, htσ, hfσ⟩⟩ :=
      splitState_cases hsolver.isBool he hsplit
    · exact absurd hno (by simp)
    · obtain rfl := Option.some.inj ht
      obtain rfl := Option.some.inj hf
      refine ⟨_, hsplit, .split hres htσ hfσ htid hfid (splitState_falseState hsplit rfl) hfbool ?_⟩
      exact ⟨hfd.trans hstate, τ, (hfσ τ).mpr ⟨hτ, hd⟩⟩

end Fork

end Executor

namespace IndirectCall

open Switch (Possible)

/-! ## The rounds -/

/-- The value that the state of the instruction itself is left with: the solver's value, unless
the new state is on the true side and takes it, which leaves the other values. -/
def ownValue (solver : TimingSolver) (RandomizeFork : Bool) (v : Expr)
    (chances : ℕ → ForkChance) : ℕ → ℕ → List Expr → Option APInt
  | 0, _, _ => none
  | rounds + 1, n, constraints => do
      let value ← solver.getValue constraints v
      let isValue := EqExpr.create v (.Constant value)
      if (RandomizeFork && (chances n).getBool) = true
          ∧ solver.evaluate constraints isValue = some .Unknown then do
        let constraints ← constraintsWith constraints isValue.createIsZero
        ownValue solver RandomizeFork v chances rounds (n + 1) constraints
      else some value

section OwnValue

variable {solver : TimingSolver} {RandomizeFork : Bool} {v : Expr} {chances : ℕ → ForkChance}
  {n : ℕ} {constraints : List Expr}

theorem ownValue_succ {value : APInt} (hvalue : solver.getValue constraints v = some value)
    (rounds : ℕ) :
    ownValue solver RandomizeFork v chances (rounds + 1) n constraints
      = if (RandomizeFork && (chances n).getBool) = true
            ∧ solver.evaluate constraints (EqExpr.create v (.Constant value)) = some .Unknown then
          (constraintsWith constraints (EqExpr.create v (.Constant value)).createIsZero).bind
            (ownValue solver RandomizeFork v chances rounds (n + 1))
        else some value := by
  rw [ownValue, hvalue]
  rfl

/-- Where the first fork does not swap, it is the first value. -/
theorem ownValue_first (h : (RandomizeFork && (chances n).getBool) = false) (rounds : ℕ) :
    ownValue solver RandomizeFork v chances (rounds + 1) n constraints
      = solver.getValue constraints v := by
  cases hvalue : solver.getValue constraints v with
  | none =>
    rw [ownValue, hvalue]
    rfl
  | some value => rw [ownValue_succ hvalue, h, if_neg (by simp)]

end OwnValue

/-- What the loop keeps of the executor. -/
structure Keeps (solver : TimingSolver) (RandomizeFork : Bool) (stateID : ℕ) (ex : Executor) :
    Prop where
  free : ex.Free
  solver : ex.solver = solver
  randomizes : ex.RandomizeFork = RandomizeFork
  stateID : ex.stateID = stateID

section Rounds

variable {solver : TimingSolver} {RandomizeFork : Bool} {stateID : ℕ} {state free : ExecutionState}
  {v : Expr} {legalFunctions : ℕ → Bool} {chances : ℕ → ForkChance} {c : IndirectCall}

theorem Keeps.terminateState {ex : Executor} (h : Keeps solver RandomizeFork stateID ex)
    (s : ExecutionState) : Keeps solver RandomizeFork stateID (ex.terminateState s) := by
  have hsame := Executor.terminateState_same ex s
  refine ⟨h.free.terminateState s, hsame.solver.trans h.solver, ?_, hsame.stateID.trans h.stateID⟩
  rw [← h.randomizes, Executor.terminateState]
  split <;> rfl

theorem Keeps.addState {ex : Executor} (h : Keeps solver RandomizeFork stateID ex) :
    Keeps solver RandomizeFork (stateID + 1) ex.addState := by
  refine ⟨h.free.addState, h.solver, h.randomizes, ?_⟩
  rw [← h.stateID]
  rfl

/-- The function that a state with a value enters. -/
def entered (legalFunctions : ℕ → Bool) (value : APInt) : Option ℕ :=
  if legalFunctions value.toNat then some value.toNat else none

/-- Whether one of the values is illegal. -/
def anyInvalid (legalFunctions : ℕ → Bool) (rounds : List (ExecutionState × APInt)) : Bool :=
  rounds.any fun p => !legalFunctions p.2.toNat

theorem anyInvalid_cons (first : ExecutionState) (value : APInt)
    (rounds : List (ExecutionState × APInt)) :
    anyInvalid legalFunctions ((first, value) :: rounds)
      = (!legalFunctions value.toNat || anyInvalid legalFunctions rounds) := rfl

/-- The rounds from a state on, with their values: each possible value has one, and the state
itself is in one of them. -/
structure Rounds (solver : TimingSolver) (RandomizeFork : Bool) (stateID : ℕ) (v : Expr)
    (chances : ℕ → ForkChance) (budget n : ℕ) (free : ExecutionState)
    (rounds : List (ExecutionState × APInt)) : Prop where
  values : ∀ value, value ∈ rounds.map Prod.snd ↔ Possible free.constraints v value
  nodup : (rounds.map Prod.snd).Nodup
  sound : ∀ p ∈ rounds, ∀ σ, Satisfies σ p.1.constraints
    ↔ Satisfies σ free.constraints ∧ v.eval σ = p.2
  ids : (rounds.map fun p => p.1.id).Nodup
  fresh : ∀ p ∈ rounds, p.1.id = free.id ∨ stateID < p.1.id
  own : ∃ p ∈ rounds, p.1.id = free.id
    ∧ ownValue solver RandomizeFork v chances budget n free.constraints = some p.2

/-- What the rounds add to what the loop has. -/
structure Extends (state : ExecutionState) (legalFunctions : ℕ → Bool) (c r : IndirectCall)
    (rounds : List (ExecutionState × APInt)) : Prop where
  states : r.states = c.states ++ rounds.map fun p => (p.1, entered legalFunctions p.2)
  errors : r.errors = c.errors
    ++ if !c.hasInvalid && anyInvalid legalFunctions rounds then [state.id] else []

theorem enter_keeps (h : Keeps solver RandomizeFork stateID c.executor)
    (first : ExecutionState) (addr : ℕ) :
    Keeps solver RandomizeFork stateID (c.enter state legalFunctions first addr).executor := by
  unfold enter
  split
  · exact h
  · split
    · exact h
    · exact h.terminateState state

/-- Entering with one value and going on with the other ones. -/
theorem enter_extends {r : IndirectCall} {first : ExecutionState} {value : APInt}
    {rounds : List (ExecutionState × APInt)}
    (h : Extends state legalFunctions (c.enter state legalFunctions first value.toNat) r rounds) :
    Extends state legalFunctions c r ((first, value) :: rounds) := by
  obtain ⟨hstates, herrors⟩ := h
  unfold enter at hstates herrors
  by_cases hlegal : legalFunctions value.toNat = true
  · rw [if_pos hlegal] at hstates herrors
    refine ⟨?_, ?_⟩
    · rw [hstates, List.map_cons, List.append_assoc, entered, if_pos hlegal]
      rfl
    · rw [herrors, anyInvalid_cons, hlegal]
      rfl
  · rw [if_neg hlegal] at hstates herrors
    have hillegal : legalFunctions value.toNat = false := by simpa using hlegal
    cases hinvalid : c.hasInvalid with
    | true =>
      rw [if_pos hinvalid] at hstates herrors
      refine ⟨?_, ?_⟩
      · rw [hstates, List.map_cons, List.append_assoc, entered, if_neg hlegal]
        rfl
      · rw [herrors, hinvalid]
        simp
    | false =>
      rw [if_neg (by simp [hinvalid])] at hstates herrors
      refine ⟨?_, ?_⟩
      · rw [hstates, List.map_cons, List.append_assoc, entered, if_neg hlegal]
        rfl
      · rw [herrors, anyInvalid_cons, hillegal, hinvalid]
        simp

/-- The last round: no other value is left. -/
theorem rounds_last {value : APInt} (hsat : ∃ σ, Satisfies σ free.constraints)
    (hvalue : solver.getValue free.constraints v = some value)
    (hvalid : solver.evaluate free.constraints (EqExpr.create v (.Constant value)) = some .True)
    (hall : ∀ σ, Satisfies σ free.constraints → v.eval σ = value) (budget n : ℕ) :
    Rounds solver RandomizeFork stateID v chances (budget + 1) n free [(free, value)] where
  values w := by
    obtain ⟨σ, hσ⟩ := hsat
    rw [List.map_singleton, List.mem_singleton]
    constructor
    · rintro rfl
      exact ⟨σ, hσ, hall σ hσ⟩
    · rintro ⟨τ, hτ, rfl⟩
      exact hall τ hτ
  nodup := List.nodup_singleton _
  sound p hp σ := by
    rw [List.mem_singleton.mp hp]
    exact ⟨fun hσ => ⟨hσ, hall σ hσ⟩, fun h => h.1⟩
  ids := List.nodup_singleton _
  fresh p hp := .inl (by rw [List.mem_singleton.mp hp])
  own := by
    refine ⟨_, List.mem_singleton_self _, rfl, ?_⟩
    rw [ownValue_succ hvalue, hvalid, if_neg (by simp)]

/-- A round that is split, before the others. -/
theorem rounds_split {value : APInt} {t f : ExecutionState}
    {rounds : List (ExecutionState × APInt)} {getBool : Bool} {budget n : ℕ}
    (hgetBool : (chances n).getBool = getBool)
    (hpossible : Possible free.constraints v value) (hid : free.id ≤ stateID)
    (hvalue : solver.getValue free.constraints v = some value)
    (hunknown : solver.evaluate free.constraints (EqExpr.create v (.Constant value))
      = some .Unknown)
    (ht : ∀ σ, Satisfies σ t.constraints ↔ Satisfies σ free.constraints ∧ v.eval σ = value)
    (hf : ∀ σ, Satisfies σ f.constraints ↔ Satisfies σ free.constraints ∧ ¬v.eval σ = value)
    (htid : t.id = if (RandomizeFork && getBool) = true then stateID + 1 else free.id)
    (hfid : f.id = if (RandomizeFork && getBool) = true then free.id else stateID + 1)
    (hfcs : constraintsWith free.constraints
      (EqExpr.create v (.Constant value)).createIsZero = some f.constraints)
    (h : Rounds solver RandomizeFork (stateID + 1) v chances budget (n + 1) f rounds) :
    Rounds solver RandomizeFork stateID v chances (budget + 1) n free ((t, value) :: rounds) where
  values w := by
    rw [List.map_cons, List.mem_cons, h.values]
    constructor
    · rintro (rfl | ⟨σ, hσ, hw⟩)
      · exact hpossible
      · exact ⟨σ, ((hf σ).mp hσ).1, hw⟩
    · rintro ⟨σ, hσ, hw⟩
      by_cases hwv : w = value
      · exact .inl hwv
      · exact .inr ⟨σ, (hf σ).mpr ⟨hσ, fun heval => hwv (hw.symm.trans heval)⟩, hw⟩
  nodup := by
    refine List.nodup_cons.mpr ⟨fun hmem => ?_, h.nodup⟩
    obtain ⟨σ, hσ, heval⟩ := (h.values value).mp hmem
    exact ((hf σ).mp hσ).2 heval
  sound p hp σ := by
    rcases List.mem_cons.mp hp with rfl | hp
    · exact ht σ
    · rw [h.sound p hp, hf, and_assoc, and_congr_right_iff]
      intro _
      obtain ⟨τ, hτ, heval⟩ := (h.values p.2).mp (List.mem_map_of_mem hp)
      have hne : p.2 ≠ value := fun heq => ((hf τ).mp hτ).2 (heval.trans heq)
      exact ⟨fun h => h.2, fun heq => ⟨fun hvalue => hne (heq.symm.trans hvalue), heq⟩⟩
  ids := by
    refine List.nodup_cons.mpr ⟨fun hmem => ?_, h.ids⟩
    obtain ⟨p, hp, hpid⟩ := List.mem_map.mp hmem
    -- the two sides of the split have different ids, and those of the other rounds are later
    have hpt : p.1.id = t.id := hpid
    rcases h.fresh p hp with hpf | hlater
    · rw [hpt, htid, hfid] at hpf
      split at hpf <;> omega
    · rw [hpt, htid] at hlater
      split at hlater <;> omega
  fresh p hp := by
    rcases List.mem_cons.mp hp with rfl | hp
    · rw [htid]
      split
      · exact .inr (Nat.lt_succ_self _)
      · exact .inl rfl
    · rcases h.fresh p hp with hpf | hlater
      · rw [hpf, hfid]
        split
        · exact .inl rfl
        · exact .inr (Nat.lt_succ_self _)
      · exact .inr (Nat.lt_of_succ_lt hlater)
  own := by
    have hown : ownValue solver RandomizeFork v chances (budget + 1) n free.constraints
        = if (RandomizeFork && getBool) = true then
            ownValue solver RandomizeFork v chances budget (n + 1) f.constraints
          else some value := by
      rw [ownValue_succ hvalue, hgetBool, hunknown, hfcs]
      simp
    rw [hown]
    split at htid
    next hswap =>
      rw [if_pos hswap] at hfid
      obtain ⟨p, hp, hpid, hpown⟩ := h.own
      exact ⟨p, List.mem_cons_of_mem _ hp, hpid.trans hfid, by rw [if_pos hswap, hpown]⟩
    next hswap => exact ⟨(t, value), List.mem_cons_self, htid, by rw [if_neg hswap]⟩

/-- The loop ends: each round takes one of the values away. -/
theorem loop_rounds (hcorrect : solver.solver.Correct) (hanswers : solver.solver.Answers)
    (hv : v.WellTyped) (hwidth : v.width ≤ 64)
    (hchances : ∀ n, (chances n).atStaticLimit = false) {budget : ℕ} :
    ∀ {n stateID : ℕ} {c : IndirectCall} {free : ExecutionState} {values : Finset APInt},
      Keeps solver RandomizeFork stateID c.executor → Executor.Open free →
      (∀ d ∈ free.constraints, d.IsBool) → free.id ≤ stateID →
      (∀ value, Possible free.constraints v value → value ∈ values) → values.card ≤ budget →
      ∃ r rounds, loop state v legalFunctions chances budget n c free = some r
        ∧ Rounds solver RandomizeFork stateID v chances budget n free rounds
        ∧ Extends state legalFunctions c r rounds := by
  induction budget with
  | zero =>
    intro n stateID c free values hkeeps hopen hbool hid hvalues hcard
    obtain ⟨σ, hσ⟩ := hopen.satisfiable
    have hmem := hvalues _ ⟨σ, hσ, rfl⟩
    rw [Finset.card_eq_zero.mp (Nat.le_zero.mp hcard)] at hmem
    exact absurd hmem (Finset.notMem_empty _)
  | succ budget ih =>
    intro n stateID c free values hkeeps hopen hbool hid hvalues hcard
    have hreliable : solver.Reliable free.constraints :=
      ⟨⟨hcorrect, hopen.satisfiable, hbool⟩, hanswers⟩
    obtain ⟨value, σ, hvalue, hσ, heval⟩ := hreliable.getValue hv
    have hvwidth : value.width = v.width := by rw [heval, hv.eval_width]
    obtain ⟨hcond, hholds⟩ := Switch.match_holds hv hvwidth
    have hpossible : Possible free.constraints v value := ⟨σ, hσ, heval.symm⟩
    obtain ⟨r, hr, hforks⟩ := hkeeps.free.forks (hkeeps.solver ▸ hreliable) hcond hopen.forkDisabled
      (chances n).getBool ⟨σ, hσ, (hholds σ).mpr heval.symm⟩
    have hwidth64 : value.width ≤ 64 := hvwidth ▸ hwidth
    rw [loop, hkeeps.solver, hvalue]
    show ∃ r rounds, ((c.executor.fork free (EqExpr.create v (.Constant value)) true
      (chances n).atStaticLimit (chances n).getBool).bind _) = some r ∧ _
    rw [hchances, hr]
    cases hforks with
    | decided hvalid hall =>
      refine ⟨c.enter state legalFunctions free value.toNat, [(free, value)], ?_, ?_, ?_⟩
      · simp [hwidth64]
      · exact rounds_last hopen.satisfiable hvalue (hkeeps.solver ▸ hvalid)
          (fun τ hτ => (hholds τ).mp (hall τ hτ)) budget n
      · exact enter_extends ⟨by simp, by simp [anyInvalid]⟩
    | @split t f hunknown ht hf htid hfid hfcs hfbool hfopen =>
      have hless : (values.erase value).card ≤ budget := by
        rw [Finset.card_erase_of_mem (hvalues value hpossible)]
        omega
      have hfvalues : ∀ w, Possible f.constraints v w → w ∈ values.erase value := by
        rintro w ⟨τ, hτ, rfl⟩
        obtain ⟨hτfree, hnot⟩ := (hf τ).mp hτ
        exact Finset.mem_erase.mpr ⟨fun heq => hnot ((hholds τ).mpr heq), hvalues _ ⟨τ, hτfree, rfl⟩⟩
      rw [Executor.swaps, hkeeps.randomizes, hkeeps.stateID] at htid hfid
      have hfid' : f.id ≤ stateID + 1 := by
        rw [hfid]
        split <;> omega
      have hkeeps' : Keeps solver RandomizeFork (stateID + 1)
          (IndirectCall.enter { c with executor := c.executor.addState } state legalFunctions t
            value.toNat).executor := enter_keeps hkeeps.addState t value.toNat
      obtain ⟨r', rounds, hloop, hrounds, hextends⟩ :=
        @ih (n + 1) _ _ _ _ hkeeps' hfopen hfbool hfid' hfvalues hless
      refine ⟨r', (t, value) :: rounds, ?_, ?_, ?_⟩
      · simp only [Option.bind_some, hwidth64, if_true]
        exact hloop
      · exact rounds_split rfl hpossible hid hvalue (hkeeps.solver ▸ hunknown)
          (fun τ => by rw [ht, hholds]) (fun τ => by rw [hf, hholds]) htid hfid hfcs hrounds
      · have hall := enter_extends hextends
        exact ⟨hall.states, hall.errors⟩

/-! ## When the call is exhaustive -/

/-- A list without repetitions in which one element alone passes a test. -/
theorem filter_eq_singleton {α : Type} {l : List α} {P : α → Bool} {a : α} (hnodup : l.Nodup)
    (ha : a ∈ l) (hP : P a = true) (hone : ∀ b ∈ l, P b = true → b = a) : l.filter P = [a] := by
  have hmem : ∀ b ∈ l.filter P, b = a := fun b hb =>
    hone b (List.mem_filter.mp hb).1 (List.mem_filter.mp hb).2
  have hin : a ∈ l.filter P := List.mem_filter.mpr ⟨ha, hP⟩
  have hfilter : (l.filter P).Nodup := hnodup.filter P
  match hl : l.filter P with
  | [] => rw [hl] at hin; exact absurd hin List.not_mem_nil
  | [b] => rw [hl] at hmem; rw [hmem b (List.mem_singleton_self b)]
  | b :: d :: rest =>
    rw [hl] at hmem hfilter
    have hb := hmem b List.mem_cons_self
    have hd := hmem d (List.mem_cons_of_mem _ List.mem_cons_self)
    rw [hb, hd] at hfilter
    exact absurd List.mem_cons_self (List.nodup_cons.mp hfilter).1

section Result

variable {budget : ℕ} {r : IndirectCall} {ex : Executor} {rounds : List (ExecutionState × APInt)}

/-- The state of the instruction is terminated when a value is illegal, and no other state. -/
theorem mem_errors (hresult : Extends state legalFunctions ⟨ex, [], [], false⟩ r rounds) (id : ℕ) :
    id ∈ r.errors ↔ id = state.id ∧ ∃ p ∈ rounds, legalFunctions p.2.toNat = false := by
  have hany : anyInvalid legalFunctions rounds = true
      ↔ ∃ p ∈ rounds, legalFunctions p.2.toNat = false := by
    simp [anyInvalid]
  rw [hresult.errors, ← hany]
  show id ∈ [] ++ (if (!false && anyInvalid legalFunctions rounds) = true then [state.id] else []) ↔ _
  cases anyInvalid legalFunctions rounds <;> simp

variable (hrounds : Rounds solver RandomizeFork stateID v chances budget 0 state rounds)
  (hresult : Extends state legalFunctions ⟨ex, [], [], false⟩ r rounds)

include hrounds

theorem Rounds.eq_of_id {p q : ExecutionState × APInt} (hp : p ∈ rounds) (hq : q ∈ rounds)
    (h : p.1.id = q.1.id) : p = q :=
  List.inj_on_of_nodup_map hrounds.ids hp hq h

theorem Rounds.eq_of_value {p q : ExecutionState × APInt} (hp : p ∈ rounds) (hq : q ∈ rounds)
    (h : p.2 = q.2) : p = q :=
  List.inj_on_of_nodup_map hrounds.nodup hp hq h

theorem Rounds.possible {p : ExecutionState × APInt} (hp : p ∈ rounds) :
    Possible state.constraints v p.2 :=
  (hrounds.values p.2).mp (List.mem_map_of_mem hp)

include hresult

/-- The call is exhaustive when an illegal value is that of the state of the instruction, and
hence the only one. -/
theorem exhaustive_iff (hv : v.WellTyped) :
    r.Exhaustive state v legalFunctions
      ↔ ∀ value, Possible state.constraints v value → legalFunctions value.toNat = false →
          ownValue solver RandomizeFork v chances budget 0 state.constraints = some value := by
  have hstates : r.states = rounds.map fun p => (p.1, entered legalFunctions p.2) := hresult.states
  have herrors := mem_errors hresult
  obtain ⟨own, hown, hownid, hownvalue⟩ := hrounds.own
  constructor
  · intro hex value hpossible hillegal
    obtain ⟨p, hp, rfl⟩ := List.mem_map.mp ((hrounds.values value).mpr hpossible)
    have hmem : (p.1, entered legalFunctions p.2) ∈ r.states := by
      rw [hstates]
      exact List.mem_map_of_mem hp
    have herror := hex.invalid _ hmem p.2 (fun σ hσ => ((hrounds.sound p hp σ).mp hσ).2) hillegal
    rw [hrounds.eq_of_id hp hown (((herrors _).mp herror).1.trans hownid.symm)]
    exact hownvalue
  · intro hcond
    -- an illegal value is in the round of the state of the instruction
    have hillegal : ∀ p ∈ rounds, legalFunctions p.2.toNat = false → p = own := by
      intro p hp hp'
      have hvalue := hcond p.2 (hrounds.possible hp) hp'
      rw [hownvalue] at hvalue
      exact hrounds.eq_of_value hp hown (Option.some.inj hvalue).symm
    have hspared : ∀ p ∈ rounds, legalFunctions p.2.toNat = true → p.1.id ∉ r.errors := by
      intro p hp hlegal herror
      obtain ⟨hpid, q, hq, hqillegal⟩ := (herrors _).mp herror
      have hpown : p = own := hrounds.eq_of_id hp hown (hpid.trans hownid.symm)
      rw [hillegal q hq hqillegal, ← hpown, hlegal] at hqillegal
      exact absurd hqillegal (by simp)
    refine ⟨fun value hpossible hlegal => ?_, fun x hx value hfix hvalue => ?_, fun x hx hentered => ?_⟩
    · obtain ⟨p, hp, rfl⟩ := List.mem_map.mp ((hrounds.values value).mpr hpossible)
      refine ⟨p.1, ?_, hrounds.sound p hp⟩
      have hone : rounds.filter (fun q => decide (entered legalFunctions q.2 = some p.2.toNat
          ∧ q.1.id ∉ r.errors)) = [p] := by
        refine filter_eq_singleton (List.Nodup.of_map _ hrounds.nodup) hp ?_ fun q hq hqp => ?_
        · rw [decide_eq_true_eq]
          exact ⟨if_pos hlegal, hspared p hp hlegal⟩
        · rw [decide_eq_true_eq, entered] at hqp
          have hnat : q.2.toNat = p.2.toNat := by
            have hentered := hqp.1
            split at hentered
            · exact Option.some.inj hentered
            · exact absurd hentered (by simp)
          have hwidth : ∀ q ∈ rounds, q.2.width = v.width := by
            intro q hq
            obtain ⟨σ, -, heval⟩ := hrounds.possible hq
            rw [← heval, hv.eval_width]
          exact hrounds.eq_of_value hq hp
            (APInt.ext_toNat ((hwidth q hq).trans (hwidth p hp).symm) hnat)
      rw [survivorsIn, hstates, List.filter_map, List.map_map]
      show (rounds.filter (fun q => decide (entered legalFunctions q.2 = some p.2.toNat
        ∧ q.1.id ∉ r.errors))).map _ = _
      rw [hone]
      rfl
    · rw [hstates] at hx
      obtain ⟨p, hp, rfl⟩ := List.mem_map.mp hx
      obtain ⟨σ, hσ, heval⟩ := hrounds.possible hp
      obtain rfl : p.2 = value := heval.symm.trans (hfix σ ((hrounds.sound p hp σ).mpr ⟨hσ, heval⟩))
      rw [herrors]
      exact ⟨by rw [hillegal p hp hvalue]; exact hownid, p, hp, hvalue⟩
    · rw [hstates] at hx
      obtain ⟨p, hp, rfl⟩ := List.mem_map.mp hx
      refine hspared p hp ?_
      by_contra hlegal
      exact hentered (if_neg hlegal)

end Result

end Rounds

end IndirectCall

/-! ## Calls -/

namespace Executor

open IndirectCall Switch

variable {ex : Executor} {state : ExecutionState} {v : Expr} {legalFunctions : ℕ → Bool}
  {chances : ℕ → ForkChance}

/-- A call through a pointer ends, and is exhaustive when an illegal value is the one that the
state of the instruction is left with. -/
theorem executeIndirectCall_returns (hfree : ex.Free)
    (hsolver : ex.solver.Reliable state.constraints) (hstate : state.forkDisabled = false)
    (hid : state.id ≤ ex.stateID) (hv : v.WellTyped) (hwidth : v.width ≤ 64)
    (hchances : ∀ n, (chances n).atStaticLimit = false) {values : Finset APInt}
    (hvalues : ∀ value, Possible state.constraints v value → value ∈ values) {rounds : ℕ}
    (hrounds : values.card ≤ rounds) :
    ∃ r, ex.executeIndirectCall state v legalFunctions chances rounds = some r
      ∧ (r.Exhaustive state v legalFunctions
        ↔ ∀ value, Possible state.constraints v value → legalFunctions value.toNat = false →
            ownValue ex.solver ex.RandomizeFork v chances rounds 0 state.constraints
              = some value) := by
  obtain ⟨r, rs, hr, hspec, hresult⟩ := @loop_rounds ex.solver ex.RandomizeFork state v
    legalFunctions chances hsolver.correct hsolver.answers hv hwidth hchances rounds 0 ex.stateID
    ⟨ex, [], [], false⟩ state values ⟨hfree, rfl, rfl, rfl⟩ ⟨hstate, hsolver.satisfiable⟩
    hsolver.isBool hid hvalues hrounds
  exact ⟨r, hr, exhaustive_iff hspec hresult hv⟩

/-- A call through a pointer with finitely many values ends. It is exhaustive when no possible
value is illegal, or one alone and the state of the instruction is left with it; unless the
first fork gives the new state the true side, that is the solver's first value. -/
theorem executeIndirectCall_exhaustive_iff (hfree : ex.Free)
    (hsolver : ex.solver.Reliable state.constraints) (hstate : state.forkDisabled = false)
    (hid : state.id ≤ ex.stateID) (hv : v.WellTyped) (hwidth : v.width ≤ 64)
    (hchances : ∀ n, (chances n).atStaticLimit = false) {values : Finset APInt}
    (hvalues : ∀ value, Possible state.constraints v value → value ∈ values) {rounds : ℕ}
    (hrounds : values.card ≤ rounds) :
    ∃ r, ex.executeIndirectCall state v legalFunctions chances rounds = some r
      ∧ (r.Exhaustive state v legalFunctions
        ↔ ∀ value, Possible state.constraints v value → legalFunctions value.toNat = false →
            ownValue ex.solver ex.RandomizeFork v chances rounds 0 state.constraints = some value)
      ∧ (ex.swaps (chances 0).getBool = false →
        (r.Exhaustive state v legalFunctions
          ↔ ∀ value, Possible state.constraints v value → legalFunctions value.toNat = false →
              ex.solver.getValue state.constraints v = some value)) := by
  obtain ⟨r, hr, hiff⟩ := @executeIndirectCall_returns ex state v legalFunctions chances hfree
    hsolver hstate hid hv hwidth hchances values hvalues rounds hrounds
  refine ⟨r, hr, hiff, fun hswap => ?_⟩
  obtain ⟨σ, hσ⟩ := hsolver.satisfiable
  have hpos : 0 < values.card := Finset.card_pos.mpr ⟨_, hvalues _ ⟨σ, hσ, rfl⟩⟩
  obtain ⟨n, rfl⟩ : ∃ n, rounds = n + 1 := Nat.exists_eq_succ_of_ne_zero (by omega)
  rw [hiff, ownValue_first hswap]

/-! ### Two calls -/

/-- The values of a width. -/
def valuesOf (w : ℕ) : Finset APInt := Finset.univ.image fun i : Fin (2 ^ w) => APInt.ofNat w i

theorem card_valuesOf (w : ℕ) : (valuesOf w).card ≤ 2 ^ w :=
  Finset.card_image_le.trans (Fintype.card_fin _).le

theorem mem_valuesOf (hv : v.WellTyped) {constraints : List Expr} {value : APInt}
    (h : Possible constraints v value) : value ∈ valuesOf v.width := by
  obtain ⟨σ, -, rfl⟩ := h
  obtain ⟨x, hx⟩ := APInt.eq_mk_of_width (hv.eval_width (σ := σ))
  refine Finset.mem_image.mpr ⟨⟨x.toNat, x.isLt⟩, Finset.mem_univ _, ?_⟩
  rw [hx]
  exact APInt.mk_inj.mpr (BitVec.eq_of_toNat_eq (by simp))

theorem reliable_initialState : (plainExecutor exactSolver).solver.Reliable initialState.constraints :=
  ⟨⟨exactSolver_correct, ⟨fun _ _ => 0, fun _ hc => absurd hc List.not_mem_nil⟩,
    fun _ hc => absurd hc List.not_mem_nil⟩, exactSolver_answers⟩

theorem free_plainExecutor (solver : SolverImpl) : (plainExecutor solver).Free :=
  ⟨rfl, rfl, rfl, rfl, rfl, rfl, rfl⟩

/-- A pointer to one of 256 functions. -/
theorem executeIndirectCall_exhaustive_all :
    ∃ r, (plainExecutor exactSolver).executeIndirectCall initialState MemoryExecutor.inputPointer
        (fun _ => true) (fun _ => ⟨false, false⟩) (2 ^ 64) = some r
      ∧ r.Exhaustive initialState MemoryExecutor.inputPointer fun _ => true := by
  have hv : MemoryExecutor.inputPointer.WellTyped := by decide
  obtain ⟨r, hr, hiff, -⟩ := @executeIndirectCall_exhaustive_iff (plainExecutor exactSolver)
    initialState MemoryExecutor.inputPointer (fun _ => true) (fun _ => ⟨false, false⟩)
    (free_plainExecutor _) reliable_initialState rfl le_rfl hv (by decide) (fun _ => rfl)
    (valuesOf 64) (fun value h => mem_valuesOf hv h) (2 ^ 64) (card_valuesOf 64)
  exact ⟨r, hr, hiff.mpr fun value _ h => absurd h (by simp)⟩

/-- A pointer to one function or to one of 255 other addresses. -/
theorem not_executeIndirectCall_exhaustive :
    ∃ r, (plainExecutor exactSolver).executeIndirectCall initialState MemoryExecutor.inputPointer
        (fun addr => addr == 4096) (fun _ => ⟨false, false⟩) (2 ^ 64) = some r
      ∧ ¬r.Exhaustive initialState MemoryExecutor.inputPointer fun addr => addr == 4096 := by
  have hv : MemoryExecutor.inputPointer.WellTyped := by decide
  obtain ⟨r, hr, hiff⟩ := @executeIndirectCall_returns (plainExecutor exactSolver)
    initialState MemoryExecutor.inputPointer (fun addr => addr == 4096)
    (fun _ => ⟨false, false⟩) (free_plainExecutor _) reliable_initialState rfl le_rfl hv (by decide)
    (fun _ => rfl) (valuesOf 64) (fun value h => mem_valuesOf hv h) (2 ^ 64) (card_valuesOf 64)
  refine ⟨r, hr, fun hex => ?_⟩
  have hall := hiff.mp hex
  -- two addresses that are no function
  have hone := hall ⟨64, 4097⟩ ⟨fun _ _ => 1, fun c hc => absurd hc List.not_mem_nil, by decide⟩
    (by decide)
  have htwo := hall ⟨64, 4098⟩ ⟨fun _ _ => 2, fun c hc => absurd hc List.not_mem_nil, by decide⟩
    (by decide)
  exact absurd (Option.some.inj (hone.symm.trans htwo)) (by decide)

end Executor

end Xklee
