/-
The values of a test case: `Executor::getSymbolicSolution` of
`lib/Core/Executor.cpp`.

The state is copied, and the preferences of its symbolic objects are added to
the copy one after the other. A preference that the copy contradicts is skipped,
and the first query that fails ends both loops. The values are then those of a
solution of the copy, one vector for each symbolic object.

What this is for is greedy choice (`Greedy.narrowAll`): the assignments that
satisfy the path condition are narrowed to each preference that some of them
meets. Time limits, reference counts and the parts of a state that no query
reads are left out.
-/
import Xklee.Core.TimingSolver
import Xklee.Data.Greedy
import Xklee.Solver.Assignment

set_option autoImplicit false

namespace Xklee

/-! ## The state -/

/-- An entry of `ExecutionState::symbolics`: what is used of the `MemoryObject`,
and the `Array` that `executeMakeSymbolic` makes for it. -/
structure SymbolicObject where
  name : String
  size : ℕ
  cexPreferences : List Expr
  array : KArray
  array_size : array.size = size
  isBool_preferences : ∀ p ∈ cexPreferences, p.IsBool

/-- What is used of an `ExecutionState`. The key says which of its objects the
address space owns. -/
structure SymbolicState where
  constraints : List Expr
  symbolics : List SymbolicObject
  cowKey : ℕ

namespace SymbolicState

/-- The arrays of the symbolic objects, in order. -/
def objects (state : SymbolicState) : List KArray := state.symbolics.map (·.array)

/-- The preferences of the symbolic objects, in order. -/
def preferences (state : SymbolicState) : List Expr := state.symbolics.flatMap (·.cexPreferences)

/-- The copy constructor of `ExecutionState`: the state after it, and the copy.
`AddressSpace(const AddressSpace &)` gives both a new key. -/
def copy (state : SymbolicState) : SymbolicState × SymbolicState :=
  ({ state with cowKey := state.cowKey + 1 }, { state with cowKey := state.cowKey + 1 })

end SymbolicState

/-! ## The queries -/

/-- `Solver::getInitialValues`: `none` where it returns `false`, also when there
is no solution. -/
def Solver.getInitialValues (impl : SolverImpl) (query : Query) (objects : List KArray) :
    Option (List (List (BitVec 8))) :=
  match impl.computeInitialValues query objects with
  | some (some values) => some values
  | _ => none

/-- `TimingSolver::getInitialValues`. -/
def TimingSolver.getInitialValues (solver : TimingSolver) (constraints : List Expr)
    (objects : List KArray) : Option (List (List (BitVec 8))) :=
  if objects.isEmpty then some []
  else Solver.getInitialValues solver.solver ⟨constraints, .Constant (.ofBool false)⟩ objects

namespace Executor

/-- The inner loop of `getSymbolicSolution`: the constraints of the copy, and
whether the loop came to its end. `none` is the failed assertion of
`addConstraint`. -/
def preferObject (solver : TimingSolver) (tmp : List Expr) :
    List Expr → Option (List Expr × Bool)
  | [] => some (tmp, true)
  | p :: cexPreferences =>
      match solver.mustBeTrue tmp p.createIsZero with
      | none => some (tmp, false)
      | some true => preferObject solver tmp cexPreferences
      | some false =>
          (ConstraintManager.addConstraint tmp p).bind
            (fun tmp => preferObject solver tmp cexPreferences)

/-- The outer loop of `getSymbolicSolution`. -/
def preferAll (solver : TimingSolver) (tmp : List Expr) : List SymbolicObject → Option (List Expr)
  | [] => some tmp
  | mo :: symbolics =>
      (preferObject solver tmp mo.cexPreferences).bind
        (fun r => if r.2 then preferAll solver r.1 symbolics else some r.1)

/-- `Executor::getSymbolicSolution`: the state after the call, and the names and
values when it returns `true`; `none` is the failed assertion of
`addConstraint`. -/
def getSymbolicSolution (solver : TimingSolver) (NoPreferCex : Bool) (state : SymbolicState) :
    Option (SymbolicState × Option (List (String × List (BitVec 8)))) :=
  let (state, tmp) := state.copy
  let tmp :=
    if NoPreferCex then some tmp.constraints
    else preferAll solver tmp.constraints state.symbolics
  tmp.map (fun constraints =>
    (state, (solver.getInitialValues constraints state.objects).map
      (fun values => (state.symbolics.map (·.name)).zip values)))

end Executor

/-! ## What the loops keep -/

/-- The assignments that satisfy the constraints. -/
def solutions (constraints : List Expr) : Set Env := {σ | Satisfies σ constraints}

/-- The preferences as wishes. -/
def wishes (prefs : List Expr) : List (Set Env) := prefs.map (fun p => {σ | p.Holds σ})

/-- The constraints are Bool and say what is in the set. -/
structure Expresses (constraints : List Expr) (S : Set Env) : Prop where
  isBool : ∀ c ∈ constraints, c.IsBool
  solutions_eq : solutions constraints = S

/-- The preferences that are left are not asked about because the query for the
first one fails. -/
def Stops (solver : TimingSolver) (tmp rest : List Expr) : Prop :=
  ∀ p ∈ rest.head?, solver.mustBeTrue tmp p.createIsZero = none

namespace Executor

section Loops

variable {solver : TimingSolver} (hsolver : solver.solver.Correct)

include hsolver

variable {tmp : List Expr} {S : Set Env}

/-- The query about a preference says whether the constraints contradict it. -/
theorem mustBeTrue_createIsZero (htmp : Expresses tmp S) (hS : S.Nonempty) {p : Expr}
    (hp : p.IsBool) {b : Bool} (h : solver.mustBeTrue tmp p.createIsZero = some b) :
    b = false ↔ (S ∩ {σ | p.Holds σ}).Nonempty := by
  have hsat : ∃ σ, Satisfies σ tmp := by
    obtain ⟨σ, hσ⟩ := hS
    rw [← htmp.solutions_eq] at hσ
    exact ⟨σ, hσ⟩
  have hvalid := TimingSolver.mustBeTrue_sound hsolver hsat htmp.isBool hp.createIsZero h
  have hmay : (S ∩ {σ | p.Holds σ}).Nonempty ↔ (⟨tmp, p⟩ : Query).MayBeTrue := by
    rw [← htmp.solutions_eq]
    exact Iff.rfl
  rw [hmay, ← Query.not_contradicted_iff, ← Query.negateExpr_valid (q := ⟨tmp, p⟩) hp]
  rw [← Bool.not_eq_true, hvalid]
  rfl

/-- The inner loop narrows the solutions to the preferences it asks about. -/
theorem preferObject_spec (prefs : List Expr) (htmp : Expresses tmp S) (hS : S.Nonempty)
    (hprefs : ∀ p ∈ prefs, p.IsBool) :
    ∃ r asked rest, preferObject solver tmp prefs = some r ∧ prefs = asked ++ rest
      ∧ Expresses r.1 (Greedy.narrowAll S (wishes asked)) ∧ Stops solver r.1 rest
      ∧ (r.2 = true ↔ rest = []) := by
  induction prefs generalizing tmp S with
  | nil => exact ⟨(tmp, true), [], [], rfl, rfl, htmp, by simp [Stops], by simp⟩
  | cons p prefs ih =>
    obtain ⟨hp, hprefs⟩ := List.forall_mem_cons.mp hprefs
    rw [preferObject]
    cases hmust : solver.mustBeTrue tmp p.createIsZero with
    | none =>
      refine ⟨(tmp, false), [], p :: prefs, rfl, rfl, htmp, ?_, by simp⟩
      intro p' hp'
      obtain rfl : p = p' := by simpa using hp'
      exact hmust
    | some b =>
      have hwish := mustBeTrue_createIsZero hsolver htmp hS hp hmust
      -- the constraints after the preference express the narrowed set
      have hrest : ∀ tmp', Expresses tmp' (Greedy.narrow S {σ | p.Holds σ}) →
          ∃ r asked rest, preferObject solver tmp' prefs = some r ∧ p :: prefs = asked ++ rest
            ∧ Expresses r.1 (Greedy.narrowAll S (wishes asked)) ∧ Stops solver r.1 rest
            ∧ (r.2 = true ↔ rest = []) := by
        intro tmp' htmp'
        obtain ⟨r, asked, rest, hr, hsplit, hexpr, hstops, hend⟩ :=
          ih htmp' (Greedy.narrow_nonempty hS _) hprefs
        exact ⟨r, p :: asked, rest, hr, by rw [hsplit, List.cons_append], hexpr, hstops, hend⟩
      cases b with
      | true =>
        have hskip : ¬(S ∩ {σ | p.Holds σ}).Nonempty := by
          rw [← hwish]
          simp
        refine hrest tmp ?_
        rwa [Greedy.narrow_of_empty hskip]
      | false =>
        have hkeep := hwish.mp rfl
        have hadd := ConstraintManager.addConstraint_represents htmp.isBool hp
        have hiff : ∀ σ, Satisfies σ tmp ↔ σ ∈ S := by
          intro σ
          rw [← htmp.solutions_eq]
          exact Iff.rfl
        cases htmp' : ConstraintManager.addConstraint tmp p with
        | none =>
          rw [htmp'] at hadd
          obtain ⟨σ, hσ, hpσ⟩ := hkeep
          exact absurd ⟨(hiff σ).mpr hσ, hpσ⟩ (hadd σ trivial)
        | some tmp' =>
          rw [htmp'] at hadd
          rw [Option.bind_some]
          refine hrest tmp' ⟨hadd.1, ?_⟩
          rw [Greedy.narrow_of_nonempty hkeep]
          ext σ
          exact (hadd.2 σ trivial).trans (and_congr_left (fun _ => hiff σ))

/-- The outer loop does so with the preferences of all objects. -/
theorem preferAll_spec (symbolics : List SymbolicObject) (htmp : Expresses tmp S) (hS : S.Nonempty) :
    ∃ r asked rest, preferAll solver tmp symbolics = some r
      ∧ symbolics.flatMap (·.cexPreferences) = asked ++ rest
      ∧ Expresses r (Greedy.narrowAll S (wishes asked)) ∧ Stops solver r rest := by
  induction symbolics generalizing tmp S with
  | nil => exact ⟨tmp, [], [], rfl, rfl, htmp, by simp [Stops]⟩
  | cons mo symbolics ih =>
    obtain ⟨r, asked, rest, hr, hsplit, hexpr, hstops, hend⟩ :=
      preferObject_spec hsolver mo.cexPreferences htmp hS mo.isBool_preferences
    rw [preferAll, hr, Option.bind_some, List.flatMap_cons, hsplit]
    cases hdone : r.2 with
    | false =>
      refine ⟨r.1, asked, rest ++ symbolics.flatMap (·.cexPreferences), rfl, ?_, hexpr, ?_⟩
      · rw [List.append_assoc]
      · intro p hp
        have hne : rest ≠ [] := by
          rw [Ne, ← hend, hdone]
          simp
        obtain ⟨q, rest', rfl⟩ := List.exists_cons_of_ne_nil hne
        exact hstops p hp
    | true =>
      obtain rfl := hend.mp hdone
      obtain ⟨r', asked', rest', hr', hsplit', hexpr', hstops'⟩ :=
        ih hexpr (Greedy.narrowAll_nonempty hS _)
      refine ⟨r', asked ++ asked', rest', hr', ?_, ?_, hstops'⟩
      · rw [hsplit', List.append_nil, List.append_assoc]
      · rwa [wishes, List.map_append, Greedy.narrowAll_append]

/-- Values that the solver returns are those of a solution. -/
theorem getInitialValues_sound (hsat : ∃ σ, Satisfies σ tmp) {objects : List KArray}
    {values : List (List (BitVec 8))} (h : solver.getInitialValues tmp objects = some values) :
    ∃ σ, Satisfies σ tmp ∧ InitialValues σ objects values := by
  unfold TimingSolver.getInitialValues at h
  split at h
  next hempty =>
    obtain rfl := List.isEmpty_iff.mp hempty
    obtain rfl := Option.some.inj h
    obtain ⟨σ, hσ⟩ := hsat
    exact ⟨σ, hσ, .nil⟩
  next =>
    unfold Solver.getInitialValues at h
    split at h
    next values' hvalues =>
      obtain rfl := Option.some.inj h
      obtain ⟨σ, hσ, -, hinit⟩ :=
        hsolver.initialValues ⟨tmp, .Constant (.ofBool false)⟩ objects _ ⟨hsat, isBool_false⟩
          hvalues
      exact ⟨σ, hσ, hinit⟩
    next => exact absurd h (by simp)

end Loops

end Executor

/-! ## Generated tests drive their path -/

/-- Every array that the expression reads is constant or among the objects. -/
def Expr.ReadsOnly (objects : List KArray) (e : Expr) : Prop :=
  ∀ ul i, .Read ul i ∈ e.deep → ul.array.isConstantArray = true ∨ ul.array ∈ objects

variable {σ τ : Env} {objects : List KArray} {values : List (List (BitVec 8))}

/-- Assignments with the same initial values agree on the bytes of the objects. -/
theorem InitialValues.agree (hσ : InitialValues σ objects values)
    (hτ : InitialValues τ objects values) {array : KArray} (harray : array ∈ objects) {n : ℕ}
    (hn : n < array.size) : σ array n = τ array n := by
  have hsame := Assignment.env_ofValues hσ harray hn
  rw [← hsame]
  exact Assignment.env_ofValues hτ harray hn

/-- The initial values of the objects decide an expression that reads only these. -/
theorem Expr.ReadsOnly.holds_iff (hσ : InitialValues σ objects values)
    (hτ : InitialValues τ objects values) {e : Expr} (he : e.ReadsOnly objects) :
    e.Holds σ ↔ e.Holds τ := by
  have heval : e.eval σ = e.eval τ := by
    refine Expr.eval_congr (fun ul i hread n _ => ?_)
    rw [KArray.initial, KArray.initial]
    rcases he ul i hread with hconst | hobject
    · rw [if_pos hconst, if_pos hconst]
    · by_cases hn : n < ul.array.size
      · rw [if_pos hn, if_pos hn, hσ.agree hτ hobject hn]
      · rw [if_neg hn, if_neg hn]
  rw [Expr.Holds, Expr.Holds, heval]

namespace Executor

/-- The assignments that satisfy the path condition and, in order, each of the
preferences that they can. -/
def preferred (state : SymbolicState) (prefs : List Expr) : Set Env :=
  Greedy.narrowAll (solutions state.constraints) (wishes prefs)

/-- What a returned list of values is: the names and one vector of the object's
size for each symbolic object, in order, which are those of a preferred
assignment; where the constraints and the preferences read nothing but the
objects, every assignment with these values is a preferred one. -/
structure Drives (state : SymbolicState) (prefs : List Expr)
    (res : List (String × List (BitVec 8))) : Prop where
  vectors : List.Forall₂ (fun mo r => r.1 = mo.name ∧ r.2.length = mo.size) state.symbolics res
  preferred : ∃ σ ∈ preferred state prefs, InitialValues σ state.objects (res.map (·.2))
  determined : (∀ e ∈ state.constraints ++ prefs, e.ReadsOnly state.objects) →
    ∀ σ, InitialValues σ state.objects (res.map (·.2)) → σ ∈ Executor.preferred state prefs

variable {σ : Env} {values : List (List (BitVec 8))}

/-- Bytes of the arrays, paired with the names, are vectors of the right sizes. -/
theorem vectors_zip {symbolics : List SymbolicObject}
    (h : List.Forall₂ (fun mo bytes => bytes = (List.range mo.array.size).map (σ mo.array))
      symbolics values) :
    List.Forall₂ (fun mo r => r.1 = mo.name ∧ r.2.length = mo.size) symbolics
      ((symbolics.map (·.name)).zip values) := by
  induction h with
  | nil => exact .nil
  | @cons mo bytes symbolics values hbytes _ ih =>
    rw [List.map_cons, List.zip_cons_cons]
    refine .cons ⟨rfl, ?_⟩ ih
    rw [hbytes, List.length_map, List.length_range]
    exact mo.array_size

/-- Values of a preferred assignment drive the path. -/
theorem drives_of_initialValues {state : SymbolicState} {prefs : List Expr}
    (hσ : σ ∈ preferred state prefs) (hvalues : InitialValues σ state.objects values) :
    Drives state prefs ((state.symbolics.map (·.name)).zip values) := by
  have hforall : List.Forall₂ (fun mo bytes => bytes = (List.range mo.array.size).map (σ mo.array))
      state.symbolics values := List.forall₂_map_left_iff.mp hvalues
  have hlength : (state.symbolics.map (·.name)).length = values.length := by
    rw [List.length_map]
    exact hforall.length_eq
  have hsnd : ((state.symbolics.map (·.name)).zip values).map (·.2) = values :=
    List.map_snd_zip hlength.ge
  refine ⟨vectors_zip hforall, ?_, ?_⟩
  · rw [hsnd]
    exact ⟨σ, hσ, hvalues⟩
  · intro hreads τ hτ
    rw [hsnd] at hτ
    have hiff : ∀ e ∈ state.constraints ++ prefs, (e.Holds σ ↔ e.Holds τ) :=
      fun e he => (hreads e he).holds_iff hvalues hτ
    have hsolution : σ ∈ solutions state.constraints ↔ τ ∈ solutions state.constraints :=
      forall₂_congr (fun c hc => hiff c (List.mem_append_left _ hc))
    refine (Greedy.mem_narrowAll_congr hsolution ?_).mp hσ
    intro wish hwish
    obtain ⟨p, hp, rfl⟩ := List.mem_map.mp hwish
    exact hiff p (List.mem_append_right _ hp)

/-- The preferences that a call takes into account: none when they are switched
off, otherwise those before the first one whose query fails. -/
structure Asked (solver : TimingSolver) (NoPreferCex : Bool) (state : SymbolicState)
    (asked : List Expr) : Prop where
  off : NoPreferCex = true → asked = []
  on : NoPreferCex = false → ∃ tmp rest, state.preferences = asked ++ rest
    ∧ Expresses tmp (preferred state asked) ∧ Stops solver tmp rest

/-- Generated tests drive the path they came from. For a satisfiable path
condition `getSymbolicSolution` fails no assertion and leaves constraints and
symbolic objects alone, and the values that it returns are those of an
assignment that satisfies the path condition and, in order, each preference
consistent with what was accepted before it. All preferences are taken into
account unless they are switched off or the solver fails on one of them, which
ends the search for more. -/
theorem getSymbolicSolution_drives (solver : TimingSolver) (hsolver : solver.solver.Correct)
    (NoPreferCex : Bool) (state : SymbolicState) (hcs : ∀ c ∈ state.constraints, c.IsBool)
    (hsat : ∃ σ, Satisfies σ state.constraints) :
    ∃ r asked, getSymbolicSolution solver NoPreferCex state
        = some ({ state with cowKey := state.cowKey + 1 }, r)
      ∧ Asked solver NoPreferCex state asked
      ∧ ∀ res ∈ r, Drives state asked res := by
  have hstart : Expresses state.constraints (solutions state.constraints) := ⟨hcs, rfl⟩
  have hvalues : ∀ constraints asked, Expresses constraints (preferred state asked) →
      ∀ res ∈ (solver.getInitialValues constraints state.objects).map
        (fun values => (state.symbolics.map (·.name)).zip values), Drives state asked res := by
    intro constraints asked hexpr res hres
    obtain ⟨values, hinit, rfl⟩ := Option.map_eq_some_iff.mp hres
    have hnonempty : (preferred state asked).Nonempty := Greedy.narrowAll_nonempty hsat _
    rw [← hexpr.solutions_eq] at hnonempty
    obtain ⟨σ, hσ, hσvalues⟩ := getInitialValues_sound hsolver hnonempty hinit
    have hmem : σ ∈ preferred state asked := by
      rw [← hexpr.solutions_eq]
      exact hσ
    exact drives_of_initialValues hmem hσvalues
  cases NoPreferCex with
  | true =>
    refine ⟨_, [], rfl, ⟨fun _ => rfl, by simp⟩, ?_⟩
    exact hvalues state.constraints [] hstart
  | false =>
    obtain ⟨tmp, asked, rest, hrun, hsplit, hexpr, hstops⟩ :=
      preferAll_spec hsolver state.symbolics hstart hsat
    refine ⟨_, asked, ?_, ⟨by simp, fun _ => ⟨tmp, rest, hsplit, hexpr, hstops⟩⟩,
      hvalues tmp asked hexpr⟩
    have hcopy : preferAll solver state.copy.2.constraints state.copy.1.symbolics = some tmp := hrun
    simp only [getSymbolicSolution, Bool.false_eq_true, if_false, hcopy, Option.map_some]
    rfl

/-! ### A byte that should be 7 -/

/-- An array of one byte. -/
def byteArray : KArray := .symbolic 0 "x" 1

/-- The byte is 7. -/
def byteIsSeven : Expr :=
  .Cmp .Eq (.Constant ⟨8, 7⟩) (.Read (.root byteArray) (.Constant ⟨32, 0⟩))

/-- A symbolic byte with a preference for 7. -/
def byteState : SymbolicState where
  constraints := []
  symbolics := [⟨"x", 1, [byteIsSeven], byteArray, rfl, by decide⟩]
  cowKey := 1

/-- A solver whose queries about truth fail and that finds a solution of the
empty list. -/
def zeroSolver : SolverImpl where
  computeTruth _ := none
  computeValidity _ := none
  computeValue _ := none
  computeInitialValues q objects :=
    if q = ⟨[], .Constant (.ofBool false)⟩ then
      some (some (objects.map (fun array => (List.range array.size).map (fun _ => 0))))
    else none

theorem zeroSolver_correct : zeroSolver.Correct where
  truth _ _ _ h := by simp [zeroSolver] at h
  validity _ _ _ h := by simp [zeroSolver] at h
  value _ _ _ _ h := by simp [zeroSolver] at h
  initialValues q objects r _ h := by
    simp only [zeroSolver, Option.ite_none_right_eq_some, Option.some.injEq] at h
    obtain ⟨rfl, rfl⟩ := h
    refine ⟨fun _ _ => 0, by simp [Satisfies], not_holds_false _, ?_⟩
    rw [InitialValues, List.forall₂_map_right_iff, List.forall₂_same]
    exact fun _ _ => rfl

/-- The byte is 7 under an assignment exactly when the preference holds. -/
theorem holds_byteIsSeven (σ : Env) : byteIsSeven.Holds σ ↔ σ byteArray 0 = 7 := by
  have hdenotes : Denotes σ byteIsSeven (BitVec.ofBool ((7 : BitVec 8) == σ byteArray 0)) := by
    refine denotes_cmp (k := .Eq) (denotes_const (by decide) 7) ?_
    rw [denotes_Read]
    exact ⟨0, by decide, denotes_const (Nat.zero_lt_succ _) 0, rfl⟩
  rw [hdenotes.holds_iff, beq_iff_eq]
  exact eq_comm

/-- A query about the preference that fails ends the search, and so does the
option: the byte is 0 although 7 was possible. -/
theorem zeroSolver_skips :
    zeroSolver.Correct ∧ (∃ σ, Satisfies σ byteState.constraints)
      ∧ (∀ NoPreferCex, getSymbolicSolution ⟨zeroSolver, false⟩ NoPreferCex byteState
          = some ({ byteState with cowKey := 2 }, some [("x", [0])]))
      ∧ ¬Drives byteState byteState.preferences [("x", [0])] := by
  refine ⟨zeroSolver_correct, ⟨fun _ _ => 0, by decide⟩, ?_, ?_⟩
  · intro NoPreferCex
    cases NoPreferCex <;> rfl
  · intro h
    obtain ⟨σ, hσ, hvalues⟩ := h.preferred
    have hzero : [0] = [σ byteArray 0] := (List.forall₂_cons.mp hvalues).1
    have hpossible : (solutions byteState.constraints ∩ {σ | byteIsSeven.Holds σ}).Nonempty :=
      ⟨fun _ _ => 7, fun c hc => absurd hc List.not_mem_nil, (holds_byteIsSeven _).mpr rfl⟩
    have hseven : σ byteArray 0 = 7 := (holds_byteIsSeven σ).mp (hσ.2 hpossible)
    rw [hseven] at hzero
    exact absurd hzero (by decide)

/-- A solver that knows the preference is possible and finds a solution of it. -/
def sevenSolver : SolverImpl where
  computeTruth q := if q = ⟨[], byteIsSeven.createIsZero⟩ then some false else none
  computeValidity _ := none
  computeValue _ := none
  computeInitialValues q objects :=
    if q = ⟨[byteIsSeven], .Constant (.ofBool false)⟩ then
      some (some (objects.map (fun array => (List.range array.size).map (fun _ => 7))))
    else none

theorem sevenSolver_correct : sevenSolver.Correct where
  truth q b _ h := by
    simp only [sevenSolver, Option.ite_none_right_eq_some, Option.some.injEq] at h
    obtain ⟨rfl, rfl⟩ := h
    have hmay : (⟨[], byteIsSeven.createIsZero⟩ : Query).MayBeFalse :=
      ⟨fun _ _ => 7, by decide, by decide⟩
    simpa using Query.not_valid_iff.mpr hmay
  validity _ _ _ h := by simp [sevenSolver] at h
  value _ _ _ _ h := by simp [sevenSolver] at h
  initialValues q objects r _ h := by
    simp only [sevenSolver, Option.ite_none_right_eq_some, Option.some.injEq] at h
    obtain ⟨rfl, rfl⟩ := h
    refine ⟨fun _ _ => 7, by decide, not_holds_false _, ?_⟩
    rw [InitialValues, List.forall₂_map_right_iff, List.forall₂_same]
    exact fun _ _ => rfl

/-- With a solver that answers, the preference for 7 is met. -/
theorem getSymbolicSolution_drives_seven :
    ∃ r asked, getSymbolicSolution ⟨sevenSolver, false⟩ false byteState
        = some ({ byteState with cowKey := 2 }, r)
      ∧ Asked ⟨sevenSolver, false⟩ false byteState asked
      ∧ ∀ res ∈ r, Drives byteState asked res :=
  getSymbolicSolution_drives ⟨sevenSolver, false⟩ sevenSolver_correct false byteState (by decide)
    ⟨fun _ _ => 0, by decide⟩

end Executor

end Xklee
