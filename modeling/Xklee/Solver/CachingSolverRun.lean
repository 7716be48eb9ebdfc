/-
Which calls of `lib/Solver/CachingSolver.cpp` reach the solver below.

A call asks the solver below at most one question, and what the answer says is
stored for the next call. `asked` reads the question off the cache, and
`step_eq_of_agree` says that nothing else of the solver below matters to the call.

A query whose entry is missing asks, and the answer fills the entry. A query whose
entry holds only half of an answer asks for the other half: both methods insert what
they learn, but `unordered_map::insert` keeps the entry that is there, so that the
other half is lost (`step_of_hit`). As long as no call learns something on a hit, every
answer stays in the cache, and what it settles is never asked again.
-/
import Xklee.Solver.CachingSolver

set_option autoImplicit false

namespace Xklee.CachingSolver

open PartialValidity (negatePartialValidity)

/-! ## Questions to the solver below -/

/-- A call of the solver below: `computeTruth` or `computeValidity`. -/
inductive Question where
  | truth (query : Query)
  | validity (query : Query)
deriving DecidableEq

/-- What an answer of the solver below says about a query. -/
abbrev Fact := Query × PartialValidity

/-- What `computeTruth` says when it returns `isValid`. -/
def ofTruth : Bool → PartialValidity
  | true => .MustBeTrue
  | false => .MayBeFalse

/-- What `computeValidity` says when it returns `result`. -/
def ofValidity : Validity → PartialValidity
  | .True => .MustBeTrue
  | .False => .MustBeFalse
  | .Unknown => .TrueOrFalse

/-- What the solver below says to a question, if it does not fail. -/
def Question.answeredBy (solver : SolverImpl) : Question → Option Fact
  | .truth query => (solver.computeTruth query).map fun isValid => (query, ofTruth isValid)
  | .validity query => (solver.computeValidity query).map fun result => (query, ofValidity result)

/-- Two solvers that do the same on a question. -/
def Question.Agree (solver solver' : SolverImpl) : Question → Prop
  | .truth query => solver.computeTruth query = solver'.computeTruth query
  | .validity query => solver.computeValidity query = solver'.computeValidity query

def Call.query : Call → Query
  | .truth _ query => query
  | .validity _ query => query

def Call.solver : Call → SolverImpl
  | .truth solver _ => solver
  | .validity solver _ => solver

section

variable (compare : Expr → Expr → Ordering)

/-- The question that a call asks the solver below, if it asks one. -/
def asked (cache : CacheMap) : Call → Option Question
  | .truth _ query =>
      match cacheLookup compare cache query with
      | none => some (.truth query)
      | some (some .MayBeTrue) => some (.truth query)
      | some _ => none
  | .validity _ query =>
      match cacheLookup compare cache query with
      | none => some (.validity query)
      | some (some .MayBeTrue) => some (.truth query)
      | some (some .MayBeFalse) => some (.truth query.negateExpr)
      | some _ => none

/-- What a call learns from the solver below. -/
def learned (cache : CacheMap) (c : Call) : Option Fact :=
  (asked compare cache c).bind (Question.answeredBy c.solver)

/-- The call has an entry, and still learns something from the solver below. -/
def Refines (cache : CacheMap) (c : Call) : Prop :=
  (cacheLookup compare cache c.query).isSome ∧ (learned compare cache c).isSome

instance (cache : CacheMap) (c : Call) : Decidable (Refines compare cache c) :=
  inferInstanceAs (Decidable (_ ∧ _))

/-- `step`, with the record of all answers that the solver below has given. -/
def stepLogged (s : CacheMap × List Fact) (c : Call) : Answer × (CacheMap × List Fact) :=
  let (a, cache') := step compare s.1 c
  (a, (cache', (learned compare s.1 c).toList ++ s.2))

/-- A query and its negation have the same canonical expression. -/
def Shares (q : Query) : Prop :=
  canonicalizeQuery compare q.negateExpr.expr
    = ((canonicalizeQuery compare q.expr).1, !(canonicalizeQuery compare q.expr).2)

instance (q : Query) : Decidable (Shares compare q) :=
  inferInstanceAs (Decidable (_ = _))

end

/-- An answer has said this about the query, or its negation about the negation. -/
def Said (facts : List Fact) (q : Query) (pv : PartialValidity) : Prop :=
  (q, pv) ∈ facts
    ∨ ∃ pv', negatePartialValidity pv' = some pv ∧ (q.negateExpr, pv') ∈ facts

/-- The answers settle the full validity of a query. -/
def Established (facts : List Fact) (q : Query) : Prop :=
  Said facts q .MustBeTrue ∨ Said facts q .MustBeFalse ∨ Said facts q .TrueOrFalse
    ∨ (Said facts q .MayBeTrue ∧ Said facts q .MayBeFalse)

/-! ## A call depends on one question -/

section

variable {compare : Expr → Expr → Ordering} {cache : CacheMap}

theorem computeTruth_eq_of_agree {solver solver' : SolverImpl} {query : Query}
    (h : ∀ question, asked compare cache (.truth solver query) = some question →
      question.Agree solver solver') :
    computeTruth compare solver cache query = computeTruth compare solver' cache query := by
  simp only [asked] at h
  unfold computeTruth
  cases hl : cacheLookup compare cache query with
  | none =>
    rw [hl] at h
    have hagree : solver.computeTruth query = solver'.computeTruth query := h _ rfl
    simp only [hagree]
  | some r =>
    rw [hl] at h
    -- Every entry but one is an answer.
    rcases r with _ | pv
    · rfl
    · cases pv with
      | MayBeTrue =>
        have hagree : solver.computeTruth query = solver'.computeTruth query := h _ rfl
        simp only [hagree]
      | _ => rfl

theorem computeValidity_eq_of_agree {solver solver' : SolverImpl} {query : Query}
    (h : ∀ question, asked compare cache (.validity solver query) = some question →
      question.Agree solver solver') :
    computeValidity compare solver cache query = computeValidity compare solver' cache query := by
  simp only [asked] at h
  unfold computeValidity
  cases hl : cacheLookup compare cache query with
  | none =>
    rw [hl] at h
    have hagree : solver.computeValidity query = solver'.computeValidity query := h _ rfl
    simp only [hagree]
  | some r =>
    rw [hl] at h
    rcases r with _ | pv
    · rfl
    · cases pv with
      | MayBeTrue =>
        have hagree : solver.computeTruth query = solver'.computeTruth query := h _ rfl
        simp only [hagree]
      | MayBeFalse =>
        have hagree : solver.computeTruth query.negateExpr
            = solver'.computeTruth query.negateExpr := h _ rfl
        simp only [hagree]
      | _ => rfl

/-! ## What is stored -/

variable {ce : CacheEntry} {pv pv' : PartialValidity} {q : Query} {r : Option PartialValidity}
  {c : Call} {s : CacheMap × List Fact}

/-- An entry that is there stays as it is. -/
theorem lookup_insert_of_isSome {ce' : CacheEntry} (h : cache.lookup ce = some pv) :
    (cache.insert ce' pv').lookup ce = some pv := by
  unfold CacheMap.insert
  split
  next => exact h
  next hmiss =>
    have hne : ce ≠ ce' := by
      rintro rfl
      rw [h] at hmiss
      exact hmiss rfl
    rw [List.lookup_cons, beq_eq_false_iff_ne.mpr hne]
    exact h

/-- A new entry can be looked up. -/
theorem lookup_insert_self (h : cache.lookup ce = none) :
    (cache.insert ce pv).lookup ce = some pv := by
  unfold CacheMap.insert
  rw [h, if_neg (by simp), List.lookup_cons_self]

/-- No call changes what is known of a query. -/
theorem cacheLookup_cacheInsert {cache' : CacheMap} {q' : Query}
    (hq : cacheLookup compare cache q = some r)
    (hins : cacheInsert compare cache q' pv = some cache') :
    cacheLookup compare cache' q = some r := by
  simp only [cacheLookup, Option.map_eq_some_iff] at hq ⊢
  simp only [cacheInsert, Option.map_eq_some_iff] at hins
  obtain ⟨pv₀, hpv₀, hr⟩ := hq
  obtain ⟨pv₁, -, rfl⟩ := hins
  exact ⟨pv₀, lookup_insert_of_isSome hpv₀, hr⟩

/-- The cache after the tail of both methods. -/
theorem storeAndAnswer_snd {α : Type} {a : α} :
    (storeAndAnswer compare cache q pv a).2 = (cacheInsert compare cache q pv).getD cache := by
  unfold storeAndAnswer
  split
  next cache' hins => rw [hins, Option.getD_some]
  next hins => rw [hins, Option.getD_none]

/-- What is stored for a query that has no entry is found again. -/
theorem cacheLookup_cacheInsert_self (hq : cacheLookup compare cache q = none) (hpv : pv ≠ .None) :
    cacheLookup compare ((cacheInsert compare cache q pv).getD cache) q = some (some pv) := by
  simp only [cacheLookup, Option.map_eq_none_iff] at hq
  obtain ⟨pv', hneg, -⟩ := PartialValidity.exists_negatePartialValidity hpv
  have hneg' := PartialValidity.negatePartialValidity_symm hneg
  unfold cacheInsert cacheLookup
  cases hused : (canonicalizeQuery compare q.expr).2 with
  | false =>
    simp only [hused, Bool.false_eq_true, if_false, Option.map_some, Option.getD_some]
    rw [lookup_insert_self hq]
    rfl
  | true =>
    -- the entry is the negation, and the lookup negates it once more
    simp only [hused, if_true, hneg, Option.map_some, Option.getD_some]
    rw [lookup_insert_self hq, Option.map_some, hneg']

/-! ## One call -/

variable (compare cache) in
/-- A call leaves the cache as it is, or stores something for its query. -/
theorem step_cases (c : Call) :
    (step compare cache c).2 = cache
      ∨ ∃ pv, (step compare cache c).2 = (cacheInsert compare cache c.query pv).getD cache := by
  cases c with
  | truth solver query =>
    show (computeTruth compare solver cache query).2 = cache
      ∨ ∃ pv, (computeTruth compare solver cache query).2 = _
    unfold computeTruth
    split
    next => exact .inl rfl
    next =>
      split
      next => exact .inl rfl
      next => exact .inr ⟨_, storeAndAnswer_snd⟩
      next => exact .inr ⟨_, storeAndAnswer_snd⟩
    next => exact .inl rfl
    next =>
      split
      next => exact .inl rfl
      next => exact .inr ⟨_, storeAndAnswer_snd⟩
      next => exact .inr ⟨_, storeAndAnswer_snd⟩
  | validity solver query =>
    show (computeValidity compare solver cache query).2 = cache
      ∨ ∃ pv, (computeValidity compare solver cache query).2 = _
    unfold computeValidity
    split
    next => exact .inl rfl
    next pv _ =>
      cases pv with
      | MayBeTrue =>
        dsimp only
        split
        next => exact .inl rfl
        next => exact .inr ⟨_, storeAndAnswer_snd⟩
        next => exact .inr ⟨_, storeAndAnswer_snd⟩
      | MayBeFalse =>
        dsimp only
        split
        next => exact .inl rfl
        next => exact .inr ⟨_, storeAndAnswer_snd⟩
        next => exact .inr ⟨_, storeAndAnswer_snd⟩
      | MustBeTrue => exact .inl rfl
      | MustBeFalse => exact .inl rfl
      | TrueOrFalse => exact .inl rfl
      | None => exact .inl rfl
    next =>
      split
      next => exact .inl rfl
      next => exact .inr ⟨_, storeAndAnswer_snd⟩
      next => exact .inr ⟨_, storeAndAnswer_snd⟩
      next => exact .inr ⟨_, storeAndAnswer_snd⟩

/-- No call changes what is known of a query. -/
theorem cacheLookup_step (h : cacheLookup compare cache q = some r) :
    cacheLookup compare (step compare cache c).2 q = some r := by
  rcases step_cases compare cache c with heq | ⟨pv, heq⟩
  · rw [heq, h]
  · rw [heq]
    cases hins : cacheInsert compare cache c.query pv with
    | none => exact h
    | some cache' => exact cacheLookup_cacheInsert h hins

/-- What a call learns of a query that has no entry is stored. -/
theorem cacheLookup_step_of_learned {fact : Fact} (hmiss : cacheLookup compare cache c.query = none)
    (h : learned compare cache c = some fact) :
    fact.1 = c.query ∧ cacheLookup compare (step compare cache c).2 c.query = some (some fact.2) := by
  cases c with
  | truth solver query =>
    have hmiss : cacheLookup compare cache query = none := hmiss
    have hasked : asked compare cache (.truth solver query) = some (.truth query) := by
      simp only [asked, hmiss]
    rw [learned, hasked] at h
    obtain ⟨isValid, htruth, rfl⟩ := Option.map_eq_some_iff.mp h
    have htruth : solver.computeTruth query = some isValid := htruth
    refine ⟨rfl, ?_⟩
    show cacheLookup compare (computeTruth compare solver cache query).2 query = _
    unfold computeTruth
    cases isValid with
    | true =>
      simp only [hmiss, htruth, storeAndAnswer_snd]
      exact cacheLookup_cacheInsert_self hmiss (by decide)
    | false =>
      simp only [hmiss, htruth, storeAndAnswer_snd]
      exact cacheLookup_cacheInsert_self hmiss (by decide)
  | validity solver query =>
    have hmiss : cacheLookup compare cache query = none := hmiss
    have hasked : asked compare cache (.validity solver query) = some (.validity query) := by
      simp only [asked, hmiss]
    rw [learned, hasked] at h
    obtain ⟨result, hvalidity, rfl⟩ := Option.map_eq_some_iff.mp h
    have hvalidity : solver.computeValidity query = some result := hvalidity
    refine ⟨rfl, ?_⟩
    show cacheLookup compare (computeValidity compare solver cache query).2 query = _
    unfold computeValidity
    cases result with
    | True =>
      simp only [hmiss, hvalidity, storeAndAnswer_snd]
      exact cacheLookup_cacheInsert_self hmiss (by decide)
    | False =>
      simp only [hmiss, hvalidity, storeAndAnswer_snd]
      exact cacheLookup_cacheInsert_self hmiss (by decide)
    | Unknown =>
      simp only [hmiss, hvalidity, storeAndAnswer_snd]
      exact cacheLookup_cacheInsert_self hmiss (by decide)

/-! ## Runs -/

/-- Every answer of the solver below is in the cache. -/
def Recorded (compare : Expr → Expr → Ordering) (s : CacheMap × List Fact) : Prop :=
  ∀ q pv, (q, pv) ∈ s.2 → cacheLookup compare s.1 q = some (some pv)

/-- A call that learns nothing on a hit records what it learns. -/
theorem stepLogged_recorded (hs : Recorded compare s) (hc : ¬Refines compare s.1 c) :
    Recorded compare (stepLogged compare s c).2 := by
  intro q pv hmem
  show cacheLookup compare (step compare s.1 c).2 q = some (some pv)
  rcases List.mem_append.mp hmem with hnew | hold
  · have hlearned : learned compare s.1 c = some (q, pv) := Option.mem_toList.mp hnew
    have hmiss : cacheLookup compare s.1 c.query = none := by
      by_contra hhit
      apply hc
      exact ⟨Option.isSome_iff_ne_none.mpr hhit, by rw [hlearned]; rfl⟩
    obtain ⟨rfl, hlookup⟩ := cacheLookup_step_of_learned hmiss hlearned
    exact hlookup
  · exact cacheLookup_step (hs q pv hold)

/-- The entry of a query answers for the negation. -/
theorem cacheLookup_negateExpr (hq : Shares compare q) (hneg : negatePartialValidity pv = some pv') :
    cacheLookup compare cache q.negateExpr = some (some pv)
      ↔ cacheLookup compare cache q = some (some pv') := by
  have hneg' := PartialValidity.negatePartialValidity_symm hneg
  have hcanonical : canonicalizeQuery compare q.negateExpr.expr
    = ((canonicalizeQuery compare q.expr).1, !(canonicalizeQuery compare q.expr).2) := hq
  have hconstraints : q.negateExpr.constraints = q.constraints := rfl
  unfold cacheLookup
  rw [hcanonical, hconstraints]
  generalize canonicalizeQuery compare q.expr = canonical
  obtain ⟨canonicalQuery, negationUsed⟩ := canonical
  simp only [Option.map_eq_some_iff]
  have hentry : ∀ entry : PartialValidity,
      (if (!negationUsed) = true then negatePartialValidity entry else some entry) = some pv
        ↔ (if negationUsed = true then negatePartialValidity entry else some entry)
          = some pv' := by
    intro entry
    cases negationUsed with
    | false =>
      simp only [Bool.not_false, if_true, Bool.false_eq_true, if_false, Option.some.injEq]
      constructor
      · intro h
        rw [PartialValidity.negatePartialValidity_symm h] at hneg
        exact Option.some.inj hneg
      · rintro rfl
        exact hneg'
    | true =>
      simp only [Bool.not_true, Bool.false_eq_true, if_false, if_true, Option.some.injEq]
      constructor
      · rintro rfl
        exact hneg
      · intro h
        have hback := PartialValidity.negatePartialValidity_symm h
        rw [hneg'] at hback
        exact (Option.some.inj hback).symm
  simp only [hentry]

/-- What the answers have said of a query is in its entry. -/
theorem cacheLookup_of_said (hs : Recorded compare s) (hq : Shares compare q) (h : Said s.2 q pv) :
    cacheLookup compare s.1 q = some (some pv) := by
  rcases h with hmem | ⟨pv', hneg, hmem⟩
  · exact hs q pv hmem
  · exact (cacheLookup_negateExpr hq hneg).mp (hs _ pv' hmem)

/-- An entry that settles the full validity. -/
def Full (pv : PartialValidity) : Prop :=
  pv = .MustBeTrue ∨ pv = .MustBeFalse ∨ pv = .TrueOrFalse

theorem cacheLookup_of_established (hs : Recorded compare s) (hq : Shares compare q)
    (h : Established s.2 q) :
    ∃ pv, Full pv ∧ cacheLookup compare s.1 q = some (some pv) := by
  rcases h with htrue | hfalse | hboth | ⟨hmayTrue, hmayFalse⟩
  · exact ⟨.MustBeTrue, .inl rfl, cacheLookup_of_said hs hq htrue⟩
  · exact ⟨.MustBeFalse, .inr (.inl rfl), cacheLookup_of_said hs hq hfalse⟩
  · exact ⟨.TrueOrFalse, .inr (.inr rfl), cacheLookup_of_said hs hq hboth⟩
  · -- one entry cannot hold both halves
    have hentry := cacheLookup_of_said hs hq hmayTrue
    rw [cacheLookup_of_said hs hq hmayFalse] at hentry
    simp at hentry

/-- A query whose entry settles its full validity asks nothing. -/
theorem asked_eq_none (hpv : Full pv) (h : cacheLookup compare cache c.query = some (some pv)) :
    asked compare cache c = none := by
  cases c with
  | truth solver query =>
    have h : cacheLookup compare cache query = some (some pv) := h
    rcases hpv with rfl | rfl | rfl
    all_goals simp only [asked, h]
  | validity solver query =>
    have h : cacheLookup compare cache query = some (some pv) := h
    rcases hpv with rfl | rfl | rfl
    all_goals simp only [asked, h]

theorem Full.negate (h : Full pv) :
    ∃ pv', negatePartialValidity pv' = some pv ∧ Full pv' := by
  rcases h with rfl | rfl | rfl
  · exact ⟨.MustBeFalse, rfl, .inr (.inl rfl)⟩
  · exact ⟨.MustBeTrue, rfl, .inl rfl⟩
  · exact ⟨.TrueOrFalse, rfl, .inr (.inr rfl)⟩

/-- In a run in which no call learns something on a hit, what the answers settle about a
query that shares its entry with its negation is never asked again. -/
theorem run_asks_once (calls : List Call)
    (hcalls : AllSteps (stepLogged compare) (fun s c => ¬Refines compare s.1 c) ([], []) calls)
    (q : Query) (hq : Shares compare q)
    (hest : Established (run (stepLogged compare) ([], []) calls).2.2 q) (c : Call)
    (hc : c.query = q ∨ c.query = q.negateExpr) :
    asked compare (run (stepLogged compare) ([], []) calls).2.1 c = none := by
  have hinit : Recorded compare ([], []) := fun q pv hmem => absurd hmem List.not_mem_nil
  have hrun : Recorded compare (run (stepLogged compare) ([], []) calls).2 :=
    run_invariant (fun _ _ hs hok => stepLogged_recorded hs hok) hinit hcalls
  obtain ⟨pv, hpv, hlookup⟩ := cacheLookup_of_established hrun hq hest
  rcases hc with hc | hc
  · apply asked_eq_none hpv
    rw [hc, hlookup]
  · obtain ⟨pv', hneg, hpv'⟩ := hpv.negate
    apply asked_eq_none hpv'
    rw [hc]
    exact (cacheLookup_negateExpr hq hneg).mpr hlookup

end

/-! ### Three calls -/

/-- The order in which the query about the first byte comes before its negation. -/
def firstByteCompare (a b : Expr) : Ordering :=
  if a = firstByteIsZero.expr then .lt else if a = b then .eq else .gt

/-- A solver that knows that the first byte may be zero and may be nonzero. -/
def bothWaysSolver : SolverImpl where
  computeTruth _ := some false
  computeValidity _ := some .Unknown
  computeValue _ := none
  computeInitialValues _ _ := none

theorem firstByteIsZero_shares : Shares firstByteCompare firstByteIsZero := by decide

/-- One answer of `computeValidity` settles both methods for the query and its negation. -/
theorem run_asks_once_firstByte :
    asked firstByteCompare
      (run (stepLogged firstByteCompare) ([], []) [.validity bothWaysSolver firstByteIsZero]).2.1
      (.truth bothWaysSolver firstByteIsZero.negateExpr) = none := by
  have hfirst : ¬Refines firstByteCompare [] (.validity bothWaysSolver firstByteIsZero) := by decide
  have hest : Established (run (stepLogged firstByteCompare) ([], [])
      [.validity bothWaysSolver firstByteIsZero]).2.2 firstByteIsZero :=
    .inr (.inr (.inl (.inl (by decide))))
  have hcalls : AllSteps (stepLogged firstByteCompare)
      (fun s c => ¬Refines firstByteCompare s.1 c) ([], [])
      [.validity bothWaysSolver firstByteIsZero] := ⟨hfirst, trivial⟩
  exact run_asks_once _ hcalls firstByteIsZero firstByteIsZero_shares hest _ (.inr rfl)

/-- A call of `computeTruth` and one of `computeValidity` settle the query, but the entry
still holds the first half: the same call asks again. -/
theorem asks_twice_firstByte :
    ¬∀ (compare : Expr → Expr → Ordering) (calls : List Call) (q : Query) (c : Call),
      Established (run (stepLogged compare) ([], []) calls).2.2 q →
      (c.query = q ∨ c.query = q.negateExpr) →
      asked compare (run (stepLogged compare) ([], []) calls).2.1 c = none := by
  intro h
  have hest : Established (run (stepLogged firstByteCompare) ([], [])
      [.truth bothWaysSolver firstByteIsZero, .validity bothWaysSolver firstByteIsZero]).2.2
      firstByteIsZero :=
    .inr (.inr (.inr ⟨.inr ⟨.MayBeFalse, rfl, by decide⟩, .inl (by decide)⟩))
  have hnone := h firstByteCompare _ firstByteIsZero
    (.validity bothWaysSolver firstByteIsZero) hest (.inl rfl)
  exact absurd hnone (by decide)

end Xklee.CachingSolver
