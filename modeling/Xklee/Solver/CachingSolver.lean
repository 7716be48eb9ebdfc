/-
The query cache: `lib/Solver/CachingSolver.cpp`.

The cache maps a list of constraints and a canonical expression to what is known
about the validity of the expression. A query and its negation share an entry;
the smaller of the two expressions is the canonical one. The order does not
matter to the result and is a parameter, `compare`, here. The entry is negated
on the way in and on the way out when the query is not the canonical one, and an
entry that exists is never overwritten: `unordered_map::insert` keeps the old
value.

The solver below may answer a call or fail, and need not behave the same way
twice: a run takes a solver for each call.
-/
import Xklee.Data.Run
import Xklee.Solver.Query

set_option autoImplicit false

namespace Xklee

/-! ## Partial validity -/

/-- `IncompleteSolver::PartialValidity`. -/
inductive PartialValidity where
  | MustBeTrue | MustBeFalse | MayBeTrue | MayBeFalse | TrueOrFalse | None
deriving DecidableEq, Repr

namespace PartialValidity

/-- `IncompleteSolver::negatePartialValidity`; it asserts that the argument is
not `None`. -/
def negatePartialValidity : PartialValidity → Option PartialValidity
  | MustBeTrue => some MustBeFalse
  | MustBeFalse => some MustBeTrue
  | MayBeTrue => some MayBeFalse
  | MayBeFalse => some MayBeTrue
  | TrueOrFalse => some TrueOrFalse
  | None => none

/-- What a partial validity says about a query. -/
def Describes (q : Query) : PartialValidity → Prop
  | MustBeTrue => q.Valid
  | MustBeFalse => q.Contradicted
  | MayBeTrue => q.MayBeTrue
  | MayBeFalse => q.MayBeFalse
  | TrueOrFalse => q.MayBeTrue ∧ q.MayBeFalse
  | None => True

variable {pv pv' : PartialValidity}

/-- The negation of a partial validity describes the negation of the query. -/
theorem negatePartialValidity_describes {q : Query} (hq : q.expr.IsBool)
    (h : pv.negatePartialValidity = some pv') :
    Describes q.negateExpr pv ↔ Describes q pv' := by
  cases pv with
  | MustBeTrue =>
    obtain rfl := Option.some.inj h
    exact Query.negateExpr_valid hq
  | MustBeFalse =>
    obtain rfl := Option.some.inj h
    exact Query.negateExpr_contradicted hq
  | MayBeTrue =>
    obtain rfl := Option.some.inj h
    exact Query.negateExpr_mayBeTrue hq
  | MayBeFalse =>
    obtain rfl := Option.some.inj h
    exact Query.negateExpr_mayBeFalse hq
  | TrueOrFalse =>
    obtain rfl := Option.some.inj h
    exact (and_congr (Query.negateExpr_mayBeTrue hq) (Query.negateExpr_mayBeFalse hq)).trans
      and_comm
  | None => simp [negatePartialValidity] at h

/-- Negating twice changes nothing. -/
theorem negatePartialValidity_symm (h : pv.negatePartialValidity = some pv') :
    pv'.negatePartialValidity = some pv := by
  cases pv <;> simp [negatePartialValidity] at h <;> subst h <;> rfl

theorem exists_negatePartialValidity (h : pv ≠ None) :
    ∃ pv', pv.negatePartialValidity = some pv' ∧ pv' ≠ None := by
  cases pv <;> simp_all [negatePartialValidity]

end PartialValidity

open PartialValidity (negatePartialValidity)

/-! ## The cache -/

namespace CachingSolver

/-- `CachingSolver::CacheEntry`. -/
structure CacheEntry where
  constraints : List Expr
  query : Expr
deriving DecidableEq

/-- The hash map; the first entry for a key counts. -/
abbrev CacheMap := List (CacheEntry × PartialValidity)

/-- `unordered_map::insert`, which keeps an existing entry. -/
def CacheMap.insert (cache : CacheMap) (ce : CacheEntry) (pv : PartialValidity) : CacheMap :=
  if (cache.lookup ce).isSome then cache else (ce, pv) :: cache

variable (compare : Expr → Expr → Ordering)

/-- `CachingSolver::canonicalizeQuery`: the canonical expression, and whether it
is the negation of the given one. -/
def canonicalizeQuery (originalQuery : Expr) : Expr × Bool :=
  let negatedQuery := originalQuery.createIsZero
  if compare originalQuery negatedQuery = .lt then (originalQuery, false)
  else (negatedQuery, true)

/-- `CachingSolver::cacheLookup`: nothing on a miss, otherwise the entry, or the
failed assertion of `negatePartialValidity`. -/
def cacheLookup (cache : CacheMap) (query : Query) : Option (Option PartialValidity) :=
  let (canonicalQuery, negationUsed) := canonicalizeQuery compare query.expr
  (cache.lookup ⟨query.constraints, canonicalQuery⟩).map
    (fun pv => if negationUsed then negatePartialValidity pv else some pv)

/-- `CachingSolver::cacheInsert`, with the failed assertion as `none`. -/
def cacheInsert (cache : CacheMap) (query : Query) (result : PartialValidity) : Option CacheMap :=
  let (canonicalQuery, negationUsed) := canonicalizeQuery compare query.expr
  (if negationUsed then negatePartialValidity result else some result).map
    (cache.insert ⟨query.constraints, canonicalQuery⟩)

/-- The tail of both methods: store what is known and return. -/
def storeAndAnswer {α : Type} (cache : CacheMap) (query : Query) (result : PartialValidity)
    (a : α) : Outcome α × CacheMap :=
  match cacheInsert compare cache query result with
  | some cache' => (.answer a, cache')
  | none => (.assertion, cache)

/-- `CachingSolver::computeValidity`. -/
def computeValidity (solver : SolverImpl) (cache : CacheMap) (query : Query) :
    Outcome Validity × CacheMap :=
  match cacheLookup compare cache query with
  | some none => (.assertion, cache)
  | some (some cachedResult) =>
      match cachedResult with
      | .MustBeTrue => (.answer .True, cache)
      | .MustBeFalse => (.answer .False, cache)
      | .TrueOrFalse => (.answer .Unknown, cache)
      | .MayBeTrue =>
          match solver.computeTruth query with
          | none => (.failed, cache)
          | some true => storeAndAnswer compare cache query .MustBeTrue .True
          | some false => storeAndAnswer compare cache query .TrueOrFalse .Unknown
      | .MayBeFalse =>
          match solver.computeTruth query.negateExpr with
          | none => (.failed, cache)
          | some true => storeAndAnswer compare cache query .MustBeFalse .False
          | some false => storeAndAnswer compare cache query .TrueOrFalse .Unknown
      | .None => (.assertion, cache)
  | none =>
      match solver.computeValidity query with
      | none => (.failed, cache)
      | some .True => storeAndAnswer compare cache query .MustBeTrue .True
      | some .False => storeAndAnswer compare cache query .MustBeFalse .False
      | some .Unknown => storeAndAnswer compare cache query .TrueOrFalse .Unknown

/-- `CachingSolver::computeTruth`. -/
def computeTruth (solver : SolverImpl) (cache : CacheMap) (query : Query) :
    Outcome Bool × CacheMap :=
  match cacheLookup compare cache query with
  | some none => (.assertion, cache)
  | some (some .MayBeTrue) =>
      -- a true assignment exists: is there a false one?
      match solver.computeTruth query with
      | none => (.failed, cache)
      | some true => storeAndAnswer compare cache query .MustBeTrue true
      | some false => storeAndAnswer compare cache query .TrueOrFalse false
  | some (some cachedResult) => (.answer (cachedResult == .MustBeTrue), cache)
  | none =>
      match solver.computeTruth query with
      | none => (.failed, cache)
      | some true => storeAndAnswer compare cache query .MustBeTrue true
      | some false => storeAndAnswer compare cache query .MayBeFalse false

/-- A call of the solver, with the solver below as it behaves on this call. -/
inductive Call where
  | truth (solver : SolverImpl) (query : Query)
  | validity (solver : SolverImpl) (query : Query)

inductive Answer where
  | truth (result : Outcome Bool)
  | validity (result : Outcome Validity)
deriving DecidableEq, Repr

def step (cache : CacheMap) : Call → Answer × CacheMap
  | .truth solver query =>
      let (r, cache') := computeTruth compare solver cache query
      (.truth r, cache')
  | .validity solver query =>
      let (r, cache') := computeValidity compare solver cache query
      (.validity r, cache')

/-! ## The cache stores true statements -/

/-- Every entry says something, and it is true of its key. -/
def CacheMap.Sound (cache : CacheMap) : Prop :=
  ∀ ce pv, (ce, pv) ∈ cache → pv ≠ .None ∧ pv.Describes ⟨ce.constraints, ce.query⟩

variable {cache : CacheMap} {ce : CacheEntry} {pv : PartialValidity}

theorem mem_of_lookup (h : cache.lookup ce = some pv) : (ce, pv) ∈ cache := by
  obtain ⟨l₁, l₂, hl, -⟩ := List.lookup_eq_some_iff.mp h
  rw [hl]
  simp

theorem CacheMap.Sound.insert (h : cache.Sound) (hn : pv ≠ .None)
    (hpv : pv.Describes ⟨ce.constraints, ce.query⟩) :
    (cache.insert ce pv).Sound := by
  rw [CacheMap.insert]
  split
  next => exact h
  next =>
    intro ce' pv' hmem
    rcases List.mem_cons.mp hmem with heq | hmem
    · obtain ⟨rfl, rfl⟩ := Prod.mk.inj heq
      exact ⟨hn, hpv⟩
    · exact h ce' pv' hmem

section

variable {compare} {cache : CacheMap} {q : Query}

/-- A hit says something true about the query that was asked. -/
theorem cacheLookup_describes (hc : cache.Sound) (hq : q.expr.IsBool)
    {r : Option PartialValidity} (h : cacheLookup compare cache q = some r) :
    ∃ pv, r = some pv ∧ pv ≠ .None ∧ pv.Describes q := by
  simp only [cacheLookup, canonicalizeQuery, Option.map_eq_some_iff] at h
  obtain ⟨pv, hl, hr⟩ := h
  obtain ⟨hn, hpv⟩ := hc _ _ (mem_of_lookup hl)
  by_cases hlt : compare q.expr q.expr.createIsZero = .lt
  · simp only [if_pos hlt] at hr hpv
    exact ⟨pv, hr.symm, hn, hpv⟩
  · simp only [if_neg hlt, if_true] at hr hpv
    obtain ⟨pv', hneg, hn'⟩ := PartialValidity.exists_negatePartialValidity hn
    have hpv' := (PartialValidity.negatePartialValidity_describes hq hneg).mp hpv
    exact ⟨pv', hr.symm.trans hneg, hn', hpv'⟩

variable (compare) in
/-- Storing a true statement about a query succeeds and keeps the cache sound. -/
theorem cacheInsert_sound (hc : cache.Sound) (hq : q.expr.IsBool) {pv : PartialValidity}
    (hn : pv ≠ .None) (hpv : pv.Describes q) :
    ∃ cache', cacheInsert compare cache q pv = some cache' ∧ cache'.Sound := by
  simp only [cacheInsert, canonicalizeQuery]
  by_cases hlt : compare q.expr q.expr.createIsZero = .lt
  · simp only [if_pos hlt]
    exact ⟨_, rfl, hc.insert hn hpv⟩
  · obtain ⟨pv', hneg, hn'⟩ := PartialValidity.exists_negatePartialValidity hn
    have hpv' := (PartialValidity.negatePartialValidity_describes hq
      (PartialValidity.negatePartialValidity_symm hneg)).mpr hpv
    simp only [if_neg hlt, if_true, hneg]
    exact ⟨_, rfl, hc.insert hn' hpv'⟩

variable (compare) in
theorem storeAndAnswer_spec {α : Type} (hc : cache.Sound) (hq : q.expr.IsBool)
    {pv : PartialValidity} (hn : pv ≠ .None) (hpv : pv.Describes q) (a : α) :
    (storeAndAnswer compare cache q pv a).1 = .answer a
      ∧ (storeAndAnswer compare cache q pv a).2.Sound := by
  obtain ⟨cache', hins, hsound⟩ := cacheInsert_sound compare hc hq hn hpv
  rw [storeAndAnswer, hins]
  exact ⟨rfl, hsound⟩

end

/-! ## Answers are true -/

section

variable {compare} {solver : SolverImpl} {cache : CacheMap} {q : Query}

/-- The common end of every branch that asked the solver below. -/
theorem storeAndAnswer_meets {α : Type} {P : α → Prop} {F : Prop} (pv : PartialValidity) (hc : cache.Sound)
    (hq : q.expr.IsBool) (hn : pv ≠ .None) (hpv : pv.Describes q) {a : α} (ha : P a) :
    (storeAndAnswer compare cache q pv a).1.Meets P F False
      ∧ (storeAndAnswer compare cache q pv a).2.Sound := by
  obtain ⟨h1, h2⟩ := storeAndAnswer_spec compare hc hq hn hpv a
  rw [h1]
  exact ⟨ha, h2⟩

theorem computeValidity_correct (hs : solver.Correct) (hc : cache.Sound) (hq : q.Ok) :
    (computeValidity compare solver cache q).1.Meets q.HasValidity solver.Fails False
      ∧ (computeValidity compare solver cache q).2.Sound := by
  have hfail : ∀ q, solver.computeTruth q = none → solver.Fails := fun q h => .inl ⟨q, h⟩
  rw [computeValidity]
  split
  next hl =>
    obtain ⟨pv, hpv, -⟩ := cacheLookup_describes hc hq.isBool hl
    simp at hpv
  next pv hl =>
    obtain ⟨pv', hpv, hn, hd⟩ := cacheLookup_describes hc hq.isBool hl
    obtain rfl := Option.some.inj hpv
    cases pv with
    | MustBeTrue => exact ⟨hd, hc⟩
    | MustBeFalse => exact ⟨hd, hc⟩
    | TrueOrFalse => exact ⟨hd, hc⟩
    | MayBeTrue =>
      dsimp only
      split
      next hf => exact ⟨hfail _ hf, hc⟩
      next ht =>
        have hv : q.Valid := (hs.truth q true hq ht).mp rfl
        exact storeAndAnswer_meets .MustBeTrue hc hq.isBool (by simp) hv hv
      next ht =>
        have hv : ¬q.Valid := fun h => by simpa using (hs.truth q false hq ht).mpr h
        have hd' : q.MayBeTrue ∧ q.MayBeFalse := ⟨hd, Query.not_valid_iff.mp hv⟩
        exact storeAndAnswer_meets .TrueOrFalse hc hq.isBool (by simp) hd' hd'
    | MayBeFalse =>
      dsimp only
      split
      next hf => exact ⟨hfail _ hf, hc⟩
      next ht =>
        have hv : q.Contradicted :=
          (Query.negateExpr_valid hq.isBool).mp ((hs.truth _ true hq.negateExpr ht).mp rfl)
        exact storeAndAnswer_meets .MustBeFalse hc hq.isBool (by simp) hv hv
      next ht =>
        have hv : ¬q.Contradicted := fun h => by
          simpa using (hs.truth _ false hq.negateExpr ht).mpr
            ((Query.negateExpr_valid hq.isBool).mpr h)
        have hd' : q.MayBeTrue ∧ q.MayBeFalse := ⟨Query.not_contradicted_iff.mp hv, hd⟩
        exact storeAndAnswer_meets .TrueOrFalse hc hq.isBool (by simp) hd' hd'
    | None => exact absurd rfl hn
  next hl =>
    split
    next hf => exact ⟨.inr ⟨q, hf⟩, hc⟩
    next hv =>
      have hv := hs.validity q _ hq hv
      exact storeAndAnswer_meets .MustBeTrue hc hq.isBool (by simp) hv hv
    next hv =>
      have hv := hs.validity q _ hq hv
      exact storeAndAnswer_meets .MustBeFalse hc hq.isBool (by simp) hv hv
    next hv =>
      have hv := hs.validity q _ hq hv
      exact storeAndAnswer_meets .TrueOrFalse hc hq.isBool (by simp) hv hv

/-- What is known of a query settles its truth, unless only a true assignment is
known. -/
theorem describes_valid_iff {pv : PartialValidity} (hq : q.Consistent) (hd : pv.Describes q)
    (hn : pv ≠ .None) (hm : pv ≠ .MayBeTrue) : (pv == .MustBeTrue) = true ↔ q.Valid := by
  cases pv with
  | MustBeTrue => exact iff_of_true rfl hd
  | MustBeFalse =>
    exact iff_of_false (by simp) (Query.not_valid_iff.mpr (Query.Contradicted.mayBeFalse hd hq))
  | MayBeTrue => exact absurd rfl hm
  | MayBeFalse => exact iff_of_false (by simp) (Query.not_valid_iff.mpr hd)
  | TrueOrFalse => exact iff_of_false (by simp) (Query.not_valid_iff.mpr hd.2)
  | None => exact absurd rfl hn

theorem computeTruth_correct (hs : solver.Correct) (hc : cache.Sound) (hq : q.Ok) :
    (computeTruth compare solver cache q).1.Meets (fun b => b = true ↔ q.Valid) solver.Fails False
      ∧ (computeTruth compare solver cache q).2.Sound := by
  have hfail : ∀ q, solver.computeTruth q = none → solver.Fails := fun q h => .inl ⟨q, h⟩
  rw [computeTruth]
  split
  next hl =>
    obtain ⟨pv, hpv, -⟩ := cacheLookup_describes hc hq.isBool hl
    simp at hpv
  next hl =>
    obtain ⟨pv', hpv, hn, hd⟩ := cacheLookup_describes hc hq.isBool hl
    obtain rfl := Option.some.inj hpv
    split
    next hf => exact ⟨hfail _ hf, hc⟩
    next ht =>
      have hv := hs.truth q true hq ht
      exact storeAndAnswer_meets .MustBeTrue hc hq.isBool (by simp) (hv.mp rfl) hv
    next ht =>
      have hv := hs.truth q false hq ht
      have hf : q.MayBeFalse := Query.not_valid_iff.mp (fun h => by simpa using hv.mpr h)
      exact storeAndAnswer_meets .TrueOrFalse hc hq.isBool (by simp) ⟨hd, hf⟩ hv
  next pv hm hl =>
    obtain ⟨pv', hpv, hn, hd⟩ := cacheLookup_describes hc hq.isBool hl
    obtain rfl := Option.some.inj hpv
    exact ⟨describes_valid_iff hq.consistent hd hn hm, hc⟩
  next hl =>
    split
    next hf => exact ⟨hfail _ hf, hc⟩
    next ht =>
      have hv := hs.truth q true hq ht
      exact storeAndAnswer_meets .MustBeTrue hc hq.isBool (by simp) (hv.mp rfl) hv
    next ht =>
      have hv := hs.truth q false hq ht
      have hf : q.MayBeFalse := Query.not_valid_iff.mp (fun h => by simpa using hv.mpr h)
      exact storeAndAnswer_meets .MayBeFalse hc hq.isBool (by simp) hf hv

end

/-! ## Runs -/

/-- The query may be posed, and the solver below is correct on this call. -/
def Call.Ok : Call → Prop
  | .truth solver query => solver.Correct ∧ query.Ok
  | .validity solver query => solver.Correct ∧ query.Ok

/-- The answer to a call is the true one, if there is an answer; there is none only
when the solver below fails. -/
def Call.AnsweredBy : Call → Answer → Prop
  | .truth solver query, .truth r => r.Meets (fun b => b = true ↔ query.Valid) solver.Fails False
  | .validity solver query, .validity r => r.Meets query.HasValidity solver.Fails False
  | _, _ => False

theorem step_correct (cache : CacheMap) (c : Call) (hc : cache.Sound) (hok : c.Ok) :
    c.AnsweredBy (step compare cache c).1 ∧ (step compare cache c).2.Sound := by
  cases c with
  | truth solver query => exact computeTruth_correct hok.1 hc hok.2
  | validity solver query => exact computeValidity_correct hok.1 hc hok.2

/-- `CachingSolver` is transparent: from the empty cache on, every answer is the
true one and every entry of the cache is true of its key. -/
theorem run_transparent (calls : List Call) (hok : ∀ c ∈ calls, c.Ok) :
    List.Forall₂ Call.AnsweredBy calls (run (step compare) [] calls).1
      ∧ CacheMap.Sound (run (step compare) [] calls).2 :=
  run_spec (step_correct compare) (by simp [CacheMap.Sound]) (allSteps_of_forall [] hok)

/-! ### A run -/

/-- Is the first byte of an array zero? -/
def firstByteIsZero : Query :=
  ⟨[], .Cmp .Eq (ConstantExpr.alloc 0 8)
    (.Read (.root (.symbolic 0 "x" 1)) (ConstantExpr.alloc 0 32))⟩

theorem firstByteIsZero_unknown : firstByteIsZero.MayBeTrue ∧ firstByteIsZero.MayBeFalse :=
  ⟨⟨fun _ _ => 0, by decide, by decide⟩, ⟨fun _ _ => 1, by decide, by decide⟩⟩

theorem firstByteIsZero_ok : firstByteIsZero.Ok :=
  ⟨⟨fun _ _ => 0, by decide⟩, by decide, rfl⟩

/-- A solver that knows this query and fails on all others. -/
def firstByteSolver : SolverImpl where
  computeTruth q := if q = firstByteIsZero then some false else none
  computeValidity q := if q = firstByteIsZero then some .Unknown else none
  computeValue _ := none
  computeInitialValues _ _ := none

theorem firstByteSolver_correct : firstByteSolver.Correct where
  truth q b _ h := by
    simp only [firstByteSolver, Option.ite_none_right_eq_some, Option.some.injEq] at h
    obtain ⟨rfl, rfl⟩ := h
    simpa using Query.not_valid_iff.mpr firstByteIsZero_unknown.2
  validity q v _ h := by
    simp only [firstByteSolver, Option.ite_none_right_eq_some, Option.some.injEq] at h
    obtain ⟨rfl, rfl⟩ := h
    exact firstByteIsZero_unknown
  value _ _ _ _ h := by simp [firstByteSolver] at h
  initialValues _ _ _ _ h := by simp [firstByteSolver] at h

/-- Two calls, of which the first one leaves the entry the second one refines. -/
theorem run_transparent_firstByte :
    List.Forall₂ Call.AnsweredBy
        [.truth firstByteSolver firstByteIsZero, .validity firstByteSolver firstByteIsZero]
        (run (step fun _ _ => .lt) [] [.truth firstByteSolver firstByteIsZero,
          .validity firstByteSolver firstByteIsZero]).1
      ∧ CacheMap.Sound (run (step fun _ _ => .lt) [] [.truth firstByteSolver firstByteIsZero,
          .validity firstByteSolver firstByteIsZero]).2 :=
  run_transparent (fun _ _ => .lt) _ (by
    have hok : firstByteSolver.Correct ∧ firstByteIsZero.Ok :=
      ⟨firstByteSolver_correct, firstByteIsZero_ok⟩
    intro c hc
    simp only [List.mem_cons, List.not_mem_nil, or_false] at hc
    rcases hc with rfl | rfl
    · exact hok
    · exact hok)

end CachingSolver

end Xklee
