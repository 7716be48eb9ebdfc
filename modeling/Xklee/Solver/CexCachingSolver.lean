/-
The counterexample cache: `lib/Solver/CexCachingSolver.cpp`.

A query is answered from an assignment that satisfies its constraints and the
negation of its expression, or from the fact that there is none. The set of
these expressions is the key. The cache maps keys to assignments, or to the null
pointer for an unsatisfiable key; the table holds every assignment that was ever
made. A key that is not in the cache may still be answered: by an assignment of
a superset, by an unsatisfiable subset, or by an assignment that happens to
satisfy it.

The invariant ties every entry to its key. With it every answer is correct, for
both settings of `cex-cache-try-all`. With `cex-cache-exp` the early return of
`computeTruth` reports a failure where it has found that the query is not valid.

The order of expressions is `Expr::compare`; any linear order will do.
-/
import Mathlib.Data.Finset.Sort
import Xklee.Data.MapOfSets
import Xklee.Data.Run
import Xklee.Solver.Assignment

set_option autoImplicit false

namespace Xklee

namespace CexCachingSolver

/-! ## The cache -/

/-- The command line options. -/
structure Config where
  CexCacheTryAll : Bool
  CexCacheExperimental : Bool
deriving DecidableEq, Repr

/-- The cache and the table of assignments. A null pointer is `none`. The table
is a `std::set` ordered by the bindings; it is searched for any satisfying
assignment. -/
structure State where
  cache : MapOfSets Expr (Option Assignment)
  assignmentsTable : List Assignment

def State.empty : State := ⟨MapOfSets.empty, []⟩

section Model

variable [LinearOrder Expr]

/-- The elements of a key in the order of `std::set`. -/
def elements (key : Finset Expr) : List Expr := key.sort (· ≤ ·)

/-- `CexCachingSolver::searchForAssignment`. -/
def searchForAssignment (config : Config) (st : State) (key : Finset Expr) :
    Option (Option Assignment) :=
  match st.cache.lookup (elements key) with
  | some result => some result
  | none =>
      -- an assignment of a superset satisfies the subset as well
      match st.cache.findSuperset (fun a => a.isSome) (elements key) with
      | some result => some result
      | none =>
          if config.CexCacheTryAll then
            match st.cache.findSubset (fun a => a.isNone) (elements key) with
            | some result => some result
            | none => (st.assignmentsTable.find? (·.satisfies (elements key))).map some
          else
            st.cache.findSubset (fun a => a.all (·.satisfies (elements key))) (elements key)

/-- The key of a query: the constraints and the negated expression, unless that
is a constant. -/
def queryKey (query : Query) : Finset Expr :=
  let neg := query.expr.createIsZero
  if neg.isConstant then query.constraints.toFinset
  else insert neg query.constraints.toFinset

/-- `CexCachingSolver::lookupAssignment`; the key is `queryKey`. -/
def lookupAssignment (config : Config) (st : State) (query : Query) :
    Option (Option Assignment) :=
  if query.expr.createIsZero.isFalse then some none
  else searchForAssignment config st (queryKey query)

/-- `assignmentsTable.insert(binding)`: an equal assignment stays in its place. -/
def insertBinding (table : List Assignment) (binding : Assignment) : List Assignment :=
  if binding ∈ table then table else table ++ [binding]

/-- `CexCachingSolver::getAssignment`; `none` is a failure of the solver. -/
def getAssignment (config : Config) (solver : SolverImpl) (st : State) (query : Query) :
    Option (Option Assignment) × State :=
  match lookupAssignment config st query with
  | some result => (some result, st)
  | none =>
      let key := elements (queryKey query)
      let objects := findSymbolicObjects key
      match solver.computeInitialValues query objects with
      | none => (none, st)
      | some none => (some none, { st with cache := st.cache.insert key none })
      | some (some values) =>
          let binding := Assignment.ofValues objects values
          (some (some binding),
            { cache := st.cache.insert key (some binding),
              assignmentsTable := insertBinding st.assignmentsTable binding })

/-- `CexCachingSolver::computeValidity`. -/
def computeValidity (config : Config) (solver : SolverImpl) (st : State) (query : Query) :
    Outcome Validity × State :=
  match getAssignment config solver st query.withFalse with
  | (none, st) => (.failed, st)
  -- "computeValidity() must have assignment"
  | (some none, st) => (.assertion, st)
  | (some (some a), st) =>
      match a.evaluate query.expr with
      | .Constant q =>
          if q.isTrue then
            match getAssignment config solver st query with
            | (none, st) => (.failed, st)
            | (some none, st) => (.answer .True, st)
            | (some (some _), st) => (.answer .Unknown, st)
          else
            match getAssignment config solver st query.negateExpr with
            | (none, st) => (.failed, st)
            | (some none, st) => (.answer .False, st)
            | (some (some _), st) => (.answer .Unknown, st)
      -- "assignment evaluation did not result in constant"
      | _ => (.assertion, st)

/-- The early return of `computeTruth`: the query is known to have no solution
that makes its expression true. -/
def returnsEarly (config : Config) (st : State) (query : Query) : Bool :=
  config.CexCacheExperimental && lookupAssignment config st query.negateExpr == some none

/-- `CexCachingSolver::computeTruth`. -/
def computeTruth (config : Config) (solver : SolverImpl) (st : State) (query : Query) :
    Outcome Bool × State :=
  if returnsEarly config st query then (.failed, st)
  else
    match getAssignment config solver st query with
    | (none, st) => (.failed, st)
    | (some a, st) => (.answer a.isNone, st)

/-- `CexCachingSolver::computeValue`. -/
def computeValue (config : Config) (solver : SolverImpl) (st : State) (query : Query) :
    Outcome Expr × State :=
  match getAssignment config solver st query.withFalse with
  | (none, st) => (.failed, st)
  | (some none, st) => (.assertion, st)
  | (some (some a), st) =>
      let result := a.evaluate query.expr
      if result.isConstant then (.answer result, st) else (.assertion, st)

/-- `CexCachingSolver::computeInitialValues`: the answer `none` is the absence of
a solution. -/
def computeInitialValues (config : Config) (solver : SolverImpl) (st : State) (query : Query)
    (objects : List KArray) : Outcome (Option (List (List (BitVec 8)))) × State :=
  match getAssignment config solver st query with
  | (none, st) => (.failed, st)
  | (some none, st) => (.answer none, st)
  | (some (some a), st) =>
      (.answer (some (objects.map fun os =>
        match a.bindings.lookup os with
        | some bytes => bytes
        | none => List.replicate os.size 0)), st)

/-! ## The invariant -/

/-- An assignment of an entry satisfies its key; a null pointer means that nothing
does. -/
def EntryOk (key : List Expr) : Option Assignment → Prop
  | none => ∀ σ, ¬Satisfies σ key
  | some a => a.Sized ∧ Satisfies a.env key

/-- Every entry of the cache is right about its key. -/
structure State.Inv (st : State) : Prop where
  entries : ∀ path v, st.cache.Stored path v → EntryOk path v
  table : ∀ a ∈ st.assignmentsTable, a.Sized

omit [LinearOrder Expr] in
theorem State.inv_empty : State.empty.Inv :=
  ⟨fun path v h => absurd h (MapOfSets.not_stored_empty path v), by simp [State.empty]⟩

variable {config : Config} {solver : SolverImpl} {st : State}

variable {key : Finset Expr} {result : Option Assignment} {q : Query}

theorem mem_elements {e : Expr} : e ∈ elements key ↔ e ∈ key :=
  Finset.mem_sort _

/-- Whatever the search finds is right about the key. -/
theorem searchForAssignment_ok (hst : st.Inv) (hwt : ∀ e ∈ key, e.WellTyped)
    (h : searchForAssignment config st key = some result) : EntryOk (elements key) result := by
  have hwt' : ∀ e ∈ elements key, e.WellTyped := fun e he => hwt e (mem_elements.mp he)
  -- an unsatisfiable subset makes the key unsatisfiable
  have hnull : ∀ path, st.cache.Stored path none → path ⊆ elements key →
      EntryOk (elements key) none :=
    fun path hs hsub σ hσ => hst.entries path none hs σ (Satisfies.subset hσ hsub)
  rw [searchForAssignment] at h
  split at h
  next result' hl =>
    obtain rfl := Option.some.inj h
    exact hst.entries _ _ (MapOfSets.stored_of_lookup hl)
  next =>
    split at h
    next result' hsup =>
      obtain rfl := Option.some.inj h
      obtain ⟨hp, path, hs, hsub⟩ := MapOfSets.stored_of_findSuperset hsup
      obtain ⟨a, rfl⟩ := Option.isSome_iff_exists.mp hp
      obtain ⟨hsized, hsat⟩ := hst.entries path _ hs
      exact ⟨hsized, Satisfies.subset hsat hsub⟩
    next =>
      split at h
      next =>
        split at h
        next result' hfind =>
          obtain rfl := Option.some.inj h
          obtain ⟨hp, path, hs, hsub⟩ := MapOfSets.stored_of_findSubset hfind
          obtain rfl := Option.isNone_iff_eq_none.mp hp
          exact hnull path hs hsub
        next =>
          obtain ⟨a, ha, rfl⟩ := Option.map_eq_some_iff.mp h
          have hsized := hst.table a (List.mem_of_find?_eq_some ha)
          have hsat := List.find?_some ha
          exact ⟨hsized, Assignment.satisfies_sound hsized hwt' hsat⟩
      next =>
        obtain ⟨hp, path, hs, hsub⟩ := MapOfSets.stored_of_findSubset h
        cases result with
        | none => exact hnull path hs hsub
        | some a =>
          have hsized : a.Sized := (hst.entries path _ hs).1
          exact ⟨hsized, Assignment.satisfies_sound hsized hwt' hp⟩

/-! ## Lookups -/

/-- The key of a query is the constraints and the negation of the expression. -/
theorem satisfies_queryKey (hq : q.expr.IsBool) (hf : q.expr.createIsZero.isFalse = false) (σ : Env) :
    Satisfies σ (elements (queryKey q)) ↔ Satisfies σ q.constraints ∧ ¬q.expr.Holds σ := by
  have hmem : Satisfies σ (elements (queryKey q)) ↔ ∀ e ∈ queryKey q, e.Holds σ :=
    forall_congr' (fun e => by rw [mem_elements])
  rw [hmem, queryKey, ← hq.holds_createIsZero]
  split
  next hc =>
    have htrue := holds_of_constant hq.createIsZero hc hf σ
    simp [Satisfies, htrue]
  next =>
    simp only [Finset.mem_insert, List.mem_toFinset, forall_eq_or_imp]
    exact and_comm

omit [LinearOrder Expr] in
theorem wellTyped_queryKey (hq : q.Typed) : ∀ e ∈ queryKey q, e.WellTyped := by
  intro e he
  have hcs : ∀ e ∈ q.constraints.toFinset, e.WellTyped :=
    fun e he => (hq.constraints e (List.mem_toFinset.mp he)).1
  rw [queryKey] at he
  split at he
  · exact hcs e he
  · rcases Finset.mem_insert.mp he with rfl | he
    · exact hq.ok.isBool.createIsZero.1
    · exact hcs e he

/-- What an assignment, or its absence, means for a query. -/
def Answers (q : Query) : Option Assignment → Prop
  | none => q.Valid
  | some a => a.Sized ∧ Satisfies a.env q.constraints ∧ ¬q.expr.Holds a.env

theorem answers_of_entryOk (hq : q.expr.IsBool) (hf : q.expr.createIsZero.isFalse = false)
    (h : EntryOk (elements (queryKey q)) result) : Answers q result := by
  have hkey := satisfies_queryKey hq hf
  cases result with
  | none => exact fun σ hσ => by_contra (fun hn => h σ ((hkey σ).mpr ⟨hσ, hn⟩))
  | some a => exact ⟨h.1, (hkey a.env).mp h.2⟩

/-- `lookupAssignment` answers the query. -/
theorem lookupAssignment_answers (hst : st.Inv) (hq : q.Typed)
    (h : lookupAssignment config st q = some result) :
    Answers q result := by
  rw [lookupAssignment] at h
  split at h
  next hf =>
    obtain rfl := Option.some.inj h
    intro σ _
    by_contra hn
    exact not_holds_of_isFalse hf σ ((hq.ok.isBool.holds_createIsZero σ).mpr hn)
  next hf =>
    have hok := searchForAssignment_ok hst (wellTyped_queryKey hq) h
    exact answers_of_entryOk hq.ok.isBool (by simpa using hf) hok

/-- A new entry keeps the invariant. -/
theorem State.Inv.insert (hst : st.Inv) {key : List Expr} {v : Option Assignment}
    (hv : EntryOk key v) {table : List Assignment} (htable : ∀ a ∈ table, a.Sized) :
    (⟨st.cache.insert key v, table⟩ : State).Inv := by
  refine ⟨fun path v' hs => ?_, htable⟩
  rcases MapOfSets.stored_insert hs with ⟨rfl, rfl⟩ | hs
  · exact hv
  · exact hst.entries path v' hs

/-- What `getAssignment` returns: an answer, or nothing because the solver failed
on the query. -/
def Gets (solver : SolverImpl) (q : Query) : Option (Option Assignment) → Prop
  | none => ∃ objects, solver.computeInitialValues q objects = none
  | some result => Answers q result

variable (config) in
/-- `getAssignment` answers the query, and fails only when the solver does. -/
theorem getAssignment_spec (hs : solver.Correct) (hst : st.Inv) (hq : q.Typed) :
    Gets solver q (getAssignment config solver st q).1
      ∧ (getAssignment config solver st q).2.Inv := by
  unfold getAssignment
  cases hl : lookupAssignment config st q with
  | some result => exact ⟨lookupAssignment_answers hst hq hl, hst⟩
  | none =>
    have hf : q.expr.createIsZero.isFalse = false := by
      rw [lookupAssignment] at hl
      split at hl
      next => exact absurd hl (by simp)
      next h => simpa using h
    have hkey := satisfies_queryKey hq.ok.isBool hf
    dsimp only
    cases hn : solver.computeInitialValues q (findSymbolicObjects (elements (queryKey q))) with
    | none => exact ⟨⟨_, hn⟩, hst⟩
    | some r =>
      cases r with
      | none =>
        have hvalid : q.Valid := hs.initialValues q _ none hq.ok hn
        have hentry : EntryOk (elements (queryKey q)) none :=
          fun σ hσ => ((hkey σ).mp hσ).2 (hvalid σ ((hkey σ).mp hσ).1)
        exact ⟨hvalid, hst.insert hentry hst.table⟩
      | some values =>
        obtain ⟨σ, hσ, hns, hvals⟩ := hs.initialValues q _ (some values) hq.ok hn
        -- the assignment has the same bytes where the key looks
        have hsized := Assignment.sized_ofValues hvals
        have hentry : EntryOk (elements (queryKey q))
            (some (Assignment.ofValues (findSymbolicObjects (elements (queryKey q))) values)) := by
          refine ⟨hsized, fun c hc => ?_⟩
          rw [Expr.Holds, Assignment.eval_ofValues hvals hc rfl]
          exact (hkey σ).mpr ⟨hσ, hns⟩ c hc
        refine ⟨answers_of_entryOk hq.ok.isBool hf hentry, hst.insert hentry (fun a ha => ?_)⟩
        rw [insertBinding] at ha
        split at ha
        · exact hst.table a ha
        · rcases List.mem_append.mp ha with ha | ha
          · exact hst.table a ha
          · rw [List.mem_singleton.mp ha]
            exact hsized

/-! ## Every answer is correct -/

/-- The solver failed on the query, on its negation, or on its constraints alone. -/
def FailsOn (solver : SolverImpl) (q : Query) : Prop :=
  ∃ q' ∈ [q.withFalse, q, q.negateExpr], ∃ objects, solver.computeInitialValues q' objects = none

/-- Evaluating the expression under some assignment does not give a constant. -/
def Residual (q : Query) : Prop := ∃ a : Assignment, (a.evaluate q.expr).isConstant = false

variable (config) in
/-- An assignment for the query with the expression `false` is a solution of the
constraints, and it exists. -/
theorem getAssignment_withFalse (hs : solver.Correct) (hst : st.Inv) (hq : q.Consistent)
    (hcs : ∀ c ∈ q.constraints, c.IsBool) :
    ((getAssignment config solver st q.withFalse).1 = none ∧ FailsOn solver q
      ∨ ∃ a, (getAssignment config solver st q.withFalse).1 = some (some a)
          ∧ a.Sized ∧ Satisfies a.env q.constraints)
      ∧ (getAssignment config solver st q.withFalse).2.Inv := by
  obtain ⟨hget, hinv⟩ := getAssignment_spec config hs hst (Query.Typed.withFalse hq hcs)
  refine ⟨?_, hinv⟩
  cases hr : (getAssignment config solver st q.withFalse).1 with
  | none =>
    rw [hr] at hget
    exact .inl ⟨rfl, q.withFalse, by simp, hget⟩
  | some result =>
    rw [hr] at hget
    cases result with
    | none =>
      obtain ⟨σ, hσ⟩ := hq
      exact absurd (hget σ hσ) (not_holds_false σ)
    | some a => exact .inr ⟨a, rfl, hget.1, hget.2.1⟩

theorem computeValidity_correct (hs : solver.Correct) (hst : st.Inv) (hq : q.Typed) :
    (computeValidity config solver st q).1.Meets q.HasValidity (FailsOn solver q) (Residual q)
      ∧ (computeValidity config solver st q).2.Inv := by
  obtain ⟨hget, hinv⟩ := getAssignment_withFalse config hs hst hq.ok.consistent hq.constraints
  unfold computeValidity
  generalize getAssignment config solver st q.withFalse = r at *
  obtain ⟨r, st'⟩ := r
  rcases hget with ⟨rfl, hfail⟩ | ⟨a, rfl, hsized, hsat⟩
  · exact ⟨hfail, hinv⟩
  · dsimp only
    cases hev : a.evaluate q.expr with
    | Constant v =>
      have hval : v = q.expr.eval a.env := Assignment.eval_of_evaluate hsized hq.ok.isBool.1 hev
      dsimp only
      split
      next htrue =>
        have hmay : q.MayBeTrue := ⟨a.env, hsat, by rwa [Expr.Holds, ← hval]⟩
        obtain ⟨hget, hinv'⟩ := getAssignment_spec config hs hinv hq
        generalize getAssignment config solver st' q = r at *
        obtain ⟨r, st''⟩ := r
        rcases r with - | - | a'
        · exact ⟨⟨q, by simp, hget⟩, hinv'⟩
        · exact ⟨hget, hinv'⟩
        · exact ⟨⟨hmay, a'.env, hget.2⟩, hinv'⟩
      next hfalse =>
        have hmay : q.MayBeFalse := ⟨a.env, hsat, by rwa [Expr.Holds, ← hval]⟩
        obtain ⟨hget, hinv'⟩ := getAssignment_spec config hs hinv hq.negateExpr
        generalize getAssignment config solver st' q.negateExpr = r at *
        obtain ⟨r, st''⟩ := r
        rcases r with - | - | a'
        · exact ⟨⟨q.negateExpr, by simp, hget⟩, hinv'⟩
        · exact ⟨(Query.negateExpr_valid hq.ok.isBool).mp hget, hinv'⟩
        · have htrue : q.MayBeTrue :=
            (Query.negateExpr_mayBeFalse hq.ok.isBool).mp ⟨a'.env, hget.2⟩
          exact ⟨⟨htrue, hmay⟩, hinv'⟩
    | _ => exact ⟨⟨a, by rw [hev]; rfl⟩, hinv⟩

/-- `computeTruth` is correct unless it returns early. -/
theorem computeTruth_correct (hs : solver.Correct) (hst : st.Inv) (hq : q.Typed)
    (hearly : returnsEarly config st q = false) :
    (computeTruth config solver st q).1.Meets (fun b => b = true ↔ q.Valid) (FailsOn solver q)
        False
      ∧ (computeTruth config solver st q).2.Inv := by
  rw [computeTruth, if_neg (by simp [hearly])]
  obtain ⟨hget, hinv⟩ := getAssignment_spec config hs hst hq
  generalize getAssignment config solver st q = r at *
  obtain ⟨r, st'⟩ := r
  rcases r with - | - | a
  · exact ⟨⟨q, by simp, hget⟩, hinv⟩
  · exact ⟨iff_of_true rfl hget, hinv⟩
  · exact ⟨iff_of_false (by simp) (Query.not_valid_iff.mpr ⟨a.env, hget.2⟩), hinv⟩

theorem computeValue_correct (hs : solver.Correct) (hst : st.Inv) (hq : q.Consistent)
    (hwt : q.expr.WellTyped) (hcs : ∀ c ∈ q.constraints, c.IsBool) :
    (computeValue config solver st q).1.Meets
        (fun e => ∃ σ, Satisfies σ q.constraints ∧ e = .Constant (q.expr.eval σ))
        (FailsOn solver q) (Residual q)
      ∧ (computeValue config solver st q).2.Inv := by
  obtain ⟨hget, hinv⟩ := getAssignment_withFalse config hs hst hq hcs
  unfold computeValue
  generalize getAssignment config solver st q.withFalse = r at *
  obtain ⟨r, st'⟩ := r
  rcases hget with ⟨rfl, hfail⟩ | ⟨a, rfl, hsized, hsat⟩
  · exact ⟨hfail, hinv⟩
  · dsimp only
    split
    next hc =>
      obtain ⟨v, hv⟩ := Expr.eq_Constant_of_isConstant hc
      rw [hv, Assignment.eval_of_evaluate hsized hwt hv]
      exact ⟨⟨a.env, hsat, rfl⟩, hinv⟩
    next hc => exact ⟨⟨a, by simpa using hc⟩, hinv⟩

omit [LinearOrder Expr] in
/-- Initial values as they are returned: zeroes for an array without a binding. -/
theorem initialValues_map {a : Assignment} (h : a.Sized) (objects : List KArray) :
    InitialValues a.env objects (objects.map fun os =>
      match a.bindings.lookup os with
      | some bytes => bytes
      | none => List.replicate os.size 0) := by
  rw [InitialValues, List.forall₂_map_right_iff, List.forall₂_same]
  intro os _
  split
  next bytes hb =>
    refine List.ext_getElem (by simp [h os bytes hb]) (fun n hn _ => ?_)
    simp [Assignment.env, Assignment.byte, hb, List.getElem?_eq_getElem hn]
  next hb =>
    refine List.ext_getElem (by simp) (fun n hn _ => ?_)
    simp [Assignment.env, Assignment.byte, hb]

theorem computeInitialValues_correct (hs : solver.Correct) (hst : st.Inv) (hq : q.Typed)
    (objects : List KArray) :
    (computeInitialValues config solver st q objects).1.Meets
        (fun r => match r with
          | none => q.Valid
          | some values => ∃ σ, Satisfies σ q.constraints ∧ ¬q.expr.Holds σ
              ∧ InitialValues σ objects values)
        (FailsOn solver q) False
      ∧ (computeInitialValues config solver st q objects).2.Inv := by
  obtain ⟨hget, hinv⟩ := getAssignment_spec config hs hst hq
  unfold computeInitialValues
  generalize getAssignment config solver st q = r at *
  obtain ⟨r, st'⟩ := r
  rcases r with - | - | a
  · exact ⟨⟨q, by simp, hget⟩, hinv⟩
  · exact ⟨hget, hinv⟩
  · exact ⟨⟨a.env, hget.2.1, hget.2.2, initialValues_map hget.1 objects⟩, hinv⟩

end Model

/-! ## Runs -/

/-- A call of the solver, with the solver below as it behaves on this call. -/
inductive Call where
  | truth (solver : SolverImpl) (query : Query)
  | validity (solver : SolverImpl) (query : Query)
  | value (solver : SolverImpl) (query : Query)
  | initialValues (solver : SolverImpl) (query : Query) (objects : List KArray)

inductive Answer where
  | truth (result : Outcome Bool)
  | validity (result : Outcome Validity)
  | value (result : Outcome Expr)
  | initialValues (result : Outcome (Option (List (List (BitVec 8)))))

/-- The query may be posed, and the solver below is sound and complete on this
call, if it does not fail. -/
def Call.Ok : Call → Prop
  | .truth solver q | .validity solver q | .initialValues solver q _ => solver.Correct ∧ q.Typed
  | .value solver q => solver.Correct ∧ q.Consistent ∧ q.expr.WellTyped
      ∧ ∀ c ∈ q.constraints, c.IsBool

/-- The answer to a call is correct; there is a failure only when the solver below
failed on the query, and a failed assertion only when the evaluation of the
expression does not give a constant. -/
def Call.AnsweredBy : Call → Answer → Prop
  | .truth solver q, .truth r => r.Meets (fun b => b = true ↔ q.Valid) (FailsOn solver q) False
  | .validity solver q, .validity r => r.Meets q.HasValidity (FailsOn solver q) (Residual q)
  | .value solver q, .value r =>
      r.Meets (fun e => ∃ σ, Satisfies σ q.constraints ∧ e = .Constant (q.expr.eval σ))
        (FailsOn solver q) (Residual q)
  | .initialValues solver q objects, .initialValues r =>
      r.Meets (fun values => match values with
          | none => q.Valid
          | some values => ∃ σ, Satisfies σ q.constraints ∧ ¬q.expr.Holds σ
              ∧ InitialValues σ objects values)
        (FailsOn solver q) False
  | _, _ => False

section Run

variable [LinearOrder Expr] (config : Config)

def step (st : State) : Call → Answer × State
  | .truth solver q =>
      let (r, st') := computeTruth config solver st q
      (.truth r, st')
  | .validity solver q =>
      let (r, st') := computeValidity config solver st q
      (.validity r, st')
  | .value solver q =>
      let (r, st') := computeValue config solver st q
      (.value r, st')
  | .initialValues solver q objects =>
      let (r, st') := computeInitialValues config solver st q objects
      (.initialValues r, st')

/-- The call is not a `computeTruth` that `cex-cache-exp` ends early. -/
def Call.Completes (st : State) : Call → Prop
  | .truth _ q => returnsEarly config st q = false
  | _ => True

theorem step_correct (st : State) (c : Call) (hst : st.Inv) (hok : c.Ok ∧ c.Completes config st) :
    c.AnsweredBy (step config st c).1 ∧ (step config st c).2.Inv := by
  cases c with
  | truth solver q => exact computeTruth_correct hok.1.1 hst hok.1.2 hok.2
  | validity solver q => exact computeValidity_correct hok.1.1 hst hok.1.2
  | value solver q => exact computeValue_correct hok.1.1 hst hok.1.2.1 hok.1.2.2.1 hok.1.2.2.2
  | initialValues solver q objects => exact computeInitialValues_correct hok.1.1 hst hok.1.2 objects

/-- In every run without an early return every answer is correct, and a query
fails only when the solver below failed on it. -/
theorem run_correct (calls : List Call)
    (hok : AllSteps (step config) (fun st c => c.Ok ∧ c.Completes config st) .empty calls) :
    List.Forall₂ Call.AnsweredBy calls (run (step config) .empty calls).1 :=
  (run_spec (step_correct config) State.inv_empty hok).1

end Run

/-! ### An early return -/

/-- A byte is less than itself. -/
def byteLtItself : Expr :=
  .Cmp .Ult (.Read (.root (.symbolic 0 "x" 1)) (ConstantExpr.alloc 0 32))
    (.Read (.root (.symbolic 0 "x" 1)) (ConstantExpr.alloc 0 32))

/-- The negation, as `createIsZero` builds it. -/
def byteNotLtItself : Expr := .Cmp .Eq (.Constant (.ofBool false)) byteLtItself

theorem createIsZero_byteLtItself : byteLtItself.createIsZero = byteNotLtItself := by decide

theorem createIsZero_byteNotLtItself : byteNotLtItself.createIsZero = byteLtItself := by decide

theorem not_holds_byteLtItself (σ : Env) : ¬byteLtItself.Holds σ := by
  have h : Denotes σ byteLtItself (BitVec.ofBool ((σ ⟨0, "x", 1, [], .inl rfl⟩ 0).ult
      (σ ⟨0, "x", 1, [], .inl rfl⟩ 0))) := ⟨by decide, rfl⟩
  rw [h.holds_iff]
  simp [BitVec.ult]

theorem typed_byteLtItself : Query.Typed ⟨[], byteLtItself⟩ :=
  ⟨⟨⟨fun _ _ => 0, by decide⟩, by decide, rfl⟩, by simp⟩

/-- A solver that never fails on queries about the two expressions. -/
def byteSolver : SolverImpl where
  computeTruth _ := none
  computeValidity _ := none
  computeValue _ := none
  computeInitialValues q objects :=
    if q = ⟨[], byteNotLtItself⟩ then some none
    else if q = ⟨[], byteLtItself⟩ ∨ q = ⟨[], .Constant (.ofBool false)⟩ then
      some (some (objects.map fun os => List.replicate os.size 0))
    else none

theorem byteSolver_correct : byteSolver.Correct where
  truth _ _ _ h := by simp [byteSolver] at h
  validity _ _ _ h := by simp [byteSolver] at h
  value _ _ _ _ h := by simp [byteSolver] at h
  initialValues q objects r hq h := by
    have hzero : InitialValues (fun _ _ => 0) objects
        (objects.map fun os => List.replicate os.size 0) := by
      rw [InitialValues, List.forall₂_map_right_iff, List.forall₂_same]
      intro os _
      exact List.ext_getElem (by simp) (fun n hn _ => by simp)
    simp only [byteSolver] at h
    split at h
    next heq =>
      obtain rfl := Option.some.inj h
      subst heq
      intro σ _
      rw [← createIsZero_byteLtItself]
      exact (typed_byteLtItself.ok.isBool.holds_createIsZero σ).mpr (not_holds_byteLtItself σ)
    next =>
      split at h
      next heq =>
        obtain rfl := Option.some.inj h
        rcases heq with rfl | rfl
        · exact ⟨fun _ _ => 0, by simp [Satisfies], not_holds_byteLtItself _, hzero⟩
        · exact ⟨fun _ _ => 0, by simp [Satisfies], not_holds_false _, hzero⟩
      next => exact absurd h (by simp)

theorem ok_byteLtItself : (Call.truth byteSolver ⟨[], byteLtItself⟩).Ok :=
  ⟨byteSolver_correct, typed_byteLtItself⟩

theorem ok_byteNotLtItself : (Call.truth byteSolver ⟨[], byteNotLtItself⟩).Ok := by
  have h := typed_byteLtItself.negateExpr
  rw [Query.negateExpr, createIsZero_byteLtItself] at h
  exact ⟨byteSolver_correct, h⟩

/-- Expressions can be ordered. -/
noncomputable abbrev someOrder : LinearOrder Expr := by
  classical exact linearOrderOfSTO WellOrderingRel

/-- The run of one call without the option. -/
theorem run_correct_byte : ∃ _ : LinearOrder Expr,
    List.Forall₂ Call.AnsweredBy [.truth byteSolver ⟨[], byteNotLtItself⟩]
      (run (step ⟨false, false⟩) .empty [.truth byteSolver ⟨[], byteNotLtItself⟩]).1 :=
  let order := someOrder
  ⟨order, run_correct ⟨false, false⟩ _ ⟨⟨ok_byteNotLtItself, rfl⟩, trivial⟩⟩

theorem elements_queryKey_byte [LinearOrder Expr] :
    elements (queryKey ⟨[], byteNotLtItself⟩) = [byteLtItself]
      ∧ elements (queryKey ⟨[], byteLtItself⟩) = [byteNotLtItself] := by
  constructor
  · have hkey : queryKey ⟨[], byteNotLtItself⟩ = {byteLtItself} := by
      rw [queryKey, createIsZero_byteNotLtItself]
      rfl
    rw [hkey, elements, Finset.sort_singleton]
  · have hkey : queryKey ⟨[], byteLtItself⟩ = {byteNotLtItself} := by
      rw [queryKey, createIsZero_byteLtItself]
      rfl
    rw [hkey, elements, Finset.sort_singleton]

/-- The query is valid: the cache learns that its key is unsatisfiable. -/
theorem step_byteNotLtItself [LinearOrder Expr] :
    step ⟨false, true⟩ .empty (.truth byteSolver ⟨[], byteNotLtItself⟩)
      = (.truth (.answer true), ⟨MapOfSets.empty.insert [byteLtItself] none, []⟩) := by
  have hlookup : ∀ key : Finset Expr, searchForAssignment ⟨false, true⟩ .empty key = none := by
    intro key
    rw [searchForAssignment]
    cases elements key <;> rfl
  have h1 : (byteNotLtItself.createIsZero).isFalse = false := by decide
  have h2 : (byteNotLtItself.createIsZero.createIsZero).isFalse = false := by decide
  have hearly : returnsEarly ⟨false, true⟩ .empty ⟨[], byteNotLtItself⟩ = false := by
    simp [returnsEarly, lookupAssignment, Query.negateExpr, h2, hlookup]
  have hsolver : ∀ objects, byteSolver.computeInitialValues ⟨[], byteNotLtItself⟩ objects
      = some none := fun objects => rfl
  have hget : getAssignment ⟨false, true⟩ byteSolver .empty ⟨[], byteNotLtItself⟩
      = (some none, ⟨MapOfSets.empty.insert [byteLtItself] none, []⟩) := by
    simp only [getAssignment, lookupAssignment, h1, hlookup, hsolver, elements_queryKey_byte.1]
    rfl
  simp [step, computeTruth, hearly, hget]

/-- The negated query then ends early. -/
theorem step_byteLtItself [LinearOrder Expr] :
    (step ⟨false, true⟩ ⟨MapOfSets.empty.insert [byteLtItself] none, []⟩
      (.truth byteSolver ⟨[], byteLtItself⟩)).1 = .truth .failed := by
  have hneg : Query.negateExpr ⟨[], byteLtItself⟩ = ⟨[], byteNotLtItself⟩ := by
    rw [Query.negateExpr, createIsZero_byteLtItself]
  have h1 : (byteNotLtItself.createIsZero).isFalse = false := by decide
  have hlookup : (MapOfSets.empty.insert [byteLtItself] none).lookup [byteLtItself]
      = some (none : Option Assignment) := by
    simp [MapOfSets.empty, MapOfSets.insert, MapOfSets.Children.modify, MapOfSets.lookup,
      MapOfSets.Children.find]
  have hearly : returnsEarly ⟨false, true⟩ ⟨MapOfSets.empty.insert [byteLtItself] none, []⟩
      ⟨[], byteLtItself⟩ = true := by
    simp [returnsEarly, hneg, lookupAssignment, h1, searchForAssignment,
      elements_queryKey_byte.1, hlookup]
  simp [step, computeTruth, hearly]

/-- With `cex-cache-exp` a query can fail although the solver below does not. -/
theorem fails_with_CexCacheExperimental :
    ¬∀ (_ : LinearOrder Expr) (config : Config) (calls : List Call), (∀ c ∈ calls, c.Ok) →
      List.Forall₂ Call.AnsweredBy calls (run (step config) .empty calls).1 := by
  intro h
  let order := someOrder
  have hrun := h someOrder ⟨false, true⟩ [.truth byteSolver ⟨[], byteNotLtItself⟩,
    .truth byteSolver ⟨[], byteLtItself⟩] (by
      intro c hc
      simp only [List.mem_cons, List.not_mem_nil, or_false] at hc
      rcases hc with rfl | rfl
      · exact ok_byteNotLtItself
      · exact ok_byteLtItself)
  rw [run_cons, step_byteNotLtItself, run_cons, List.forall₂_cons, List.forall₂_cons,
    step_byteLtItself] at hrun
  -- the second call reports a failure
  obtain ⟨q, hq, objects, hfail⟩ := hrun.2.1
  have hneg : Query.negateExpr ⟨[], byteLtItself⟩ = ⟨[], byteNotLtItself⟩ := by
    rw [Query.negateExpr, createIsZero_byteLtItself]
  rw [hneg] at hq
  simp only [List.mem_cons, List.not_mem_nil, or_false] at hq
  rcases hq with rfl | rfl | rfl
  · have hsome : byteSolver.computeInitialValues ⟨[], .Constant (.ofBool false)⟩ objects
        = some (some (objects.map fun os => List.replicate os.size 0)) := rfl
    exact absurd (hsome.symm.trans hfail) (by simp)
  · have hsome : byteSolver.computeInitialValues ⟨[], byteLtItself⟩ objects
        = some (some (objects.map fun os => List.replicate os.size 0)) := rfl
    exact absurd (hsome.symm.trans hfail) (by simp)
  · have hsome : byteSolver.computeInitialValues ⟨[], byteNotLtItself⟩ objects
        = some none := rfl
    exact absurd (hsome.symm.trans hfail) (by simp)

end CexCachingSolver

end Xklee
