/-
The chain of solvers: `lib/Basic/ConstructSolverChain.cpp`.

Every solver of the chain answers a query from what it stores and from the solver below it.
A layer is such a solver with its store; the solver at the bottom is the core solver, which
is given with each call as it behaves on that call. `Sound` says what a layer owes its
caller: right answers, a failure only for a reason, and a failed assertion only where the
expression does not evaluate to a constant. Each layer is sound if the one below is, and so
is the chain, whatever the options.
-/
import Xklee.Solver.CachingSolverRun
import Xklee.Solver.CexCachingSolver
import Xklee.Solver.ExactSolver
import Xklee.Solver.IndependentSolver

set_option autoImplicit false

namespace Xklee

/-! ## Calls -/

namespace Outcome

variable {α : Type}

/-- An answer, or `false` of the source. -/
def ofOption : Option α → Outcome α
  | some a => .answer a
  | none => .failed

def toOption : Outcome α → Option α
  | .answer a => some a
  | .failed | .assertion => none

def isAssertion : Outcome α → Bool
  | .assertion => true
  | .answer _ | .failed => false

end Outcome

/-- A method of `SolverImpl` with its arguments, at the type of its answer. -/
inductive SolverCall : Type → Type
  | truth (query : Query) : SolverCall Bool
  | validity (query : Query) : SolverCall Validity
  | value (query : Query) : SolverCall Expr
  | initialValues (query : Query) (objects : List KArray) :
      SolverCall (Option (List (List (BitVec 8))))

namespace SolverCall

variable {α : Type}

def query : SolverCall α → Query
  | .truth q | .validity q | .value q | .initialValues q _ => q

/-- The query may be posed: its constraints are Bool and have a solution, and so is its
expression, but for a value. -/
def Ok : SolverCall α → Prop
  | .truth q | .validity q | .initialValues q _ => q.Typed
  | .value q => q.Consistent ∧ q.expr.WellTyped ∧ ∀ c ∈ q.constraints, c.IsBool

/-- The right answers to a call. -/
def Right : SolverCall α → α → Prop
  | .truth q, isValid => isValid = true ↔ q.Valid
  | .validity q, result => q.HasValidity result
  | .value q, result => ∃ σ, Satisfies σ q.constraints ∧ result = .Constant (q.expr.eval σ)
  | .initialValues q objects, values =>
      match values with
      | none => q.Valid
      | some values => ∃ σ, Satisfies σ q.constraints ∧ ¬q.expr.Holds σ
          ∧ InitialValues σ objects values

/-- The method of a solver without a store. -/
def ask (core : SolverImpl) : SolverCall α → Option α
  | .truth q => core.computeTruth q
  | .validity q => core.computeValidity q
  | .value q => core.computeValue q
  | .initialValues q objects => core.computeInitialValues q objects

/-- What `IndependentSolver` asks: the query with the kept constraints, but all of them where
initial values are asked for. -/
def independent : SolverCall α → SolverCall α
  | .truth q => .truth (independentQuery q)
  | .validity q => .validity (independentQuery q)
  | .value q => .value (independentQuery q)
  | .initialValues q objects => .initialValues q objects

end SolverCall

/-- The solver fails on some call. -/
def SolverImpl.FailsSomewhere (core : SolverImpl) : Prop :=
  ∃ (α : Type) (c : SolverCall α), c.ask core = none

/-! ## Layers -/

/-- A `SolverImpl` with what it stores. -/
structure SolverLayer where
  Store : Type
  init : Store
  call : {α : Type} → SolverImpl → SolverCall α → Store → Outcome α × Store

namespace SolverLayer

/-- The core solver. -/
def core : SolverLayer where
  Store := Unit
  init := ()
  call impl c s := (.ofOption (c.ask impl), s)

/-- `createCexCachingSolver`, over the core solver. -/
def cexCaching [LinearOrder Expr] (config : CexCachingSolver.Config) : SolverLayer where
  Store := CexCachingSolver.State
  init := .empty
  call impl c st :=
    match c with
    | .truth q => CexCachingSolver.computeTruth config impl st q
    | .validity q => CexCachingSolver.computeValidity config impl st q
    | .value q => CexCachingSolver.computeValue config impl st q
    | .initialValues q objects => CexCachingSolver.computeInitialValues config impl st q objects

section Caching

variable (compare : Expr → Expr → Ordering) (below : SolverLayer) (impl : SolverImpl)

/-- The layer below as it answers in a state of its store. -/
def answering (s : below.Store) : SolverImpl where
  computeTruth q := (below.call impl (.truth q) s).1.toOption
  computeValidity q := (below.call impl (.validity q) s).1.toOption
  computeValue q := (below.call impl (.value q) s).1.toOption
  computeInitialValues q objects := (below.call impl (.initialValues q objects) s).1.toOption

/-- The layer below is asked one question, or none: whether an assertion fails there, and
the store that it leaves. -/
def put (s : below.Store) : Option CachingSolver.Question → Bool × below.Store
  | none => (false, s)
  | some (.truth q) => ((below.call impl (.truth q) s).1.isAssertion, (below.call impl (.truth q) s).2)
  | some (.validity q) =>
      ((below.call impl (.validity q) s).1.isAssertion, (below.call impl (.validity q) s).2)

/-- A method of the cache, which asks that question. -/
def cached {α : Type} (st : CachingSolver.CacheMap × below.Store)
    (question : Option CachingSolver.Question) (r : Outcome α × CachingSolver.CacheMap) :
    Outcome α × (CachingSolver.CacheMap × below.Store) :=
  let (asserted, s') := below.put impl st.2 question
  if asserted then (.assertion, (st.1, s')) else (r.1, (r.2, s'))

/-- `createCachingSolver`. -/
def caching : SolverLayer where
  Store := CachingSolver.CacheMap × below.Store
  init := ([], below.init)
  call impl c st :=
    let solver := below.answering impl st.2
    match c with
    | .truth q =>
        below.cached impl st (CachingSolver.asked compare st.1 (.truth solver q))
          (CachingSolver.computeTruth compare solver st.1 q)
    | .validity q =>
        below.cached impl st (CachingSolver.asked compare st.1 (.validity solver q))
          (CachingSolver.computeValidity compare solver st.1 q)
    | .value q =>
        let (r, s') := below.call impl (.value q) st.2
        (r, (st.1, s'))
    | .initialValues q objects =>
        let (r, s') := below.call impl (.initialValues q objects) st.2
        (r, (st.1, s'))

end Caching

/-- `createIndependentSolver`. -/
def independent (below : SolverLayer) : SolverLayer where
  Store := below.Store
  init := below.init
  call impl c s := below.call impl c.independent s

end SolverLayer

/-- The options of `constructSolverChain`. -/
structure SolverOptions where
  UseCexCache : Bool
  UseCache : Bool
  UseIndependentSolver : Bool
  cex : CexCachingSolver.Config

/-- `constructSolverChain`. -/
def constructSolverChain [LinearOrder Expr] (compare : Expr → Expr → Ordering)
    (options : SolverOptions) : SolverLayer :=
  let solver := if options.UseCexCache then .cexCaching options.cex else .core
  let solver := if options.UseCache then solver.caching compare else solver
  if options.UseIndependentSolver then solver.independent else solver

/-! ## What a layer owes its caller -/

theorem Outcome.Meets.imp {α : Type} {P P' : α → Prop} {F F' A A' : Prop} {r : Outcome α}
    (h : r.Meets P F A) (hP : ∀ a, P a → P' a) (hF : F → F') (hA : A → A') : r.Meets P' F' A' := by
  cases r with
  | answer a => exact hP a h
  | failed => exact hF h
  | assertion => exact hA h

theorem Outcome.Meets.of_toOption {α : Type} {P : α → Prop} {F A : Prop} {r : Outcome α} {a : α}
    (h : r.Meets P F A) (ha : r.toOption = some a) : P a := by
  cases r with
  | answer b =>
    obtain rfl := Option.some.inj ha
    exact h
  | failed => cases ha
  | assertion => cases ha

theorem Outcome.Meets.of_none {α : Type} {P : α → Prop} {F A : Prop} {r : Outcome α}
    (h : r.Meets P F A) (hn : r.toOption = none) (hassert : r.isAssertion = false) : F := by
  cases r with
  | answer b => cases hn
  | failed => exact h
  | assertion => cases hassert

theorem Outcome.Meets.of_assertion {α : Type} {P : α → Prop} {F A : Prop} {r : Outcome α}
    (h : r.Meets P F A) (hassert : r.isAssertion = true) : A := by
  cases r with
  | answer b => cases hassert
  | failed => cases hassert
  | assertion => exact h

namespace SolverLayer

/-- An assertion may fail only where the expression does not evaluate to a constant. -/
def Asserts {α : Type} : SolverCall α → Prop
  | .truth _ | .initialValues _ _ => False
  | .validity q | .value q => CexCachingSolver.Residual q

/-- The layer answers every call over a correct core solver: the answer is right, and it
fails only for the reason given. It keeps its invariant. -/
structure Sound (layer : SolverLayer) (fails : SolverImpl → Prop) (Inv : layer.Store → Prop) :
    Prop where
  init : Inv layer.init
  call : ∀ {α : Type} (impl : SolverImpl) (c : SolverCall α) (s : layer.Store), impl.Correct →
    c.Ok → Inv s → (layer.call impl c s).1.Meets c.Right (fails impl) (Asserts c)
      ∧ Inv (layer.call impl c s).2

variable {fails : SolverImpl → Prop}

theorem core_sound (hfails : ∀ impl, impl.FailsSomewhere → fails impl) :
    core.Sound fails fun _ => True := by
  refine ⟨trivial, fun {α} impl c s hcore hc _ => ⟨?_, trivial⟩⟩
  show (Outcome.ofOption (c.ask impl)).Meets c.Right (fails impl) (Asserts c)
  cases hask : c.ask impl with
  | none => exact hfails impl ⟨α, c, hask⟩
  | some a =>
    cases c with
    | truth q => exact hcore.truth q a hc.ok hask
    | validity q => exact hcore.validity q a hc.ok hask
    | value q => exact hcore.value q a hc.1 hc.2.1 hask
    | initialValues q objects => exact hcore.initialValues q objects a hc.ok hask

theorem cexCaching_sound [LinearOrder Expr] {config : CexCachingSolver.Config}
    (hfails : ∀ impl, impl.FailsSomewhere → fails impl)
    (hearly : config.CexCacheExperimental = true → ∀ impl, fails impl) :
    (cexCaching config).Sound fails CexCachingSolver.State.Inv := by
  refine ⟨CexCachingSolver.State.inv_empty, fun {α} impl c st hcore hc hst => ?_⟩
  have hon : ∀ q, CexCachingSolver.FailsOn impl q → fails impl := by
    rintro q ⟨q', -, objects, hnone⟩
    exact hfails impl ⟨_, .initialValues q' objects, hnone⟩
  cases c with
  | truth q =>
    cases hreturns : CexCachingSolver.returnsEarly config st q with
    | true =>
      have hcall : (cexCaching config).call impl (.truth q) st = (.failed, st) := if_pos hreturns
      rw [hcall]
      exact ⟨hearly ((Bool.and_eq_true _ _).mp hreturns).1 impl, hst⟩
    | false =>
      obtain ⟨hmeets, hinv⟩ := CexCachingSolver.computeTruth_correct hcore hst hc hreturns
      exact ⟨hmeets.imp (fun _ => id) (hon q) id, hinv⟩
  | validity q =>
    obtain ⟨hmeets, hinv⟩ := @CexCachingSolver.computeValidity_correct _ config _ _ _ hcore hst hc
    exact ⟨hmeets.imp (fun _ => id) (hon q) id, hinv⟩
  | value q =>
    obtain ⟨hmeets, hinv⟩ :=
      @CexCachingSolver.computeValue_correct _ config _ _ _ hcore hst hc.1 hc.2.1 hc.2.2
    exact ⟨hmeets.imp (fun _ => id) (hon q) id, hinv⟩
  | initialValues q objects =>
    obtain ⟨hmeets, hinv⟩ :=
      @CexCachingSolver.computeInitialValues_correct _ config _ _ _ hcore hst hc objects
    exact ⟨hmeets.imp (fun _ => id) (hon q) id, hinv⟩

variable {below : SolverLayer} {Inv : below.Store → Prop}

theorem Ok.independent {α : Type} {c : SolverCall α} (hc : c.Ok) : c.independent.Ok := by
  have hsubset : ∀ q : Query, (∀ c ∈ q.constraints, c.IsBool) →
      ∀ c ∈ (independentQuery q).constraints, c.IsBool := fun q h c hc =>
    h c ((result_append_dropped_perm q).subset (List.mem_append_left _ hc))
  cases c with
  | truth q => exact ⟨independentQuery_ok hc.ok, hsubset q hc.constraints⟩
  | validity q => exact ⟨independentQuery_ok hc.ok, hsubset q hc.constraints⟩
  | value q =>
    obtain ⟨σ, hσ⟩ := hc.1
    exact ⟨⟨σ, satisfies_result q hσ⟩, hc.2.1, hsubset q hc.2.2⟩
  | initialValues q objects => exact hc

/-- The kept constraints have the right answers of all. -/
theorem Right.of_independent {α : Type} {c : SolverCall α} {a : α} (hc : c.Ok)
    (ha : c.independent.Right a) : c.Right a := by
  cases c with
  | truth q => exact Iff.trans ha (independentQuery_valid hc.ok.consistent)
  | validity q =>
    have hq := hc.ok.consistent
    cases a with
    | True => exact (independentQuery_valid hq).mp ha
    | False => exact (independentQuery_contradicted hq).mp ha
    | Unknown => exact ⟨(exists_value_iff hq (·.isTrue = true)).mp ha.1,
        (exists_value_iff hq (¬·.isTrue = true)).mp ha.2⟩
  | value q => exact (exists_value_iff hc.1 (fun v => a = .Constant v)).mp ha
  | initialValues q objects => exact ha

theorem independent_sound (h : below.Sound fails Inv) : below.independent.Sound fails Inv := by
  refine ⟨h.init, fun {α} impl c s hcore hc hs => ?_⟩
  obtain ⟨hmeets, hinv⟩ := h.call impl c.independent s hcore (Ok.independent hc) hs
  have hasserts : Asserts c.independent → Asserts c := by
    cases c <;> exact id
  exact ⟨hmeets.imp (fun a => Right.of_independent hc) id hasserts, hinv⟩

/-! ## The cache asks one question -/

section Caching

variable {compare : Expr → Expr → Ordering} {cache : CachingSolver.CacheMap} {q : Query}
  {solver : SolverImpl} {question : Option CachingSolver.Question}

variable (compare cache solver) in
/-- The question that a call of the cache asks may be posed. -/
theorem typed_of_asked_truth (hq : q.Typed) (asked : CachingSolver.Question)
    (h : CachingSolver.asked compare cache (.truth solver q) = some asked) :
    ∃ q', asked = .truth q' ∧ q'.Typed := by
  simp only [CachingSolver.asked] at h
  split at h
  all_goals first
    | exact ⟨q, (Option.some.inj h).symm, hq⟩
    | cases h

variable (compare cache solver) in
theorem typed_of_asked_validity (hq : q.Typed) (asked : CachingSolver.Question)
    (h : CachingSolver.asked compare cache (.validity solver q) = some asked) :
    asked = .validity q ∨ ∃ q', asked = .truth q' ∧ q'.Typed := by
  simp only [CachingSolver.asked] at h
  split at h
  · exact .inl (Option.some.inj h).symm
  · exact .inr ⟨q, (Option.some.inj h).symm, hq⟩
  · exact .inr ⟨q.negateExpr, (Option.some.inj h).symm, hq.negateExpr⟩
  · cases h

variable (solver question) in
/-- A solver that does the same on one question, and is exact on the others. -/
noncomputable def settled : SolverImpl where
  computeTruth q :=
    if question = some (.truth q) then solver.computeTruth q else exactSolver.computeTruth q
  computeValidity q :=
    if question = some (.validity q) then solver.computeValidity q
    else exactSolver.computeValidity q
  computeValue := exactSolver.computeValue
  computeInitialValues := exactSolver.computeInitialValues

theorem settled_agree (asked : CachingSolver.Question) (h : question = some asked) :
    asked.Agree solver (settled solver question) := by
  subst h
  cases asked with
  | truth q => exact (if_pos rfl).symm
  | validity q => exact (if_pos rfl).symm

variable {impl : SolverImpl} {s : below.Store} (h : below.Sound fails Inv) (hcore : impl.Correct)
  (hs : Inv s) (hq : q.Typed)
  (htyped : ∀ asked, question = some asked →
    asked = .validity q ∨ ∃ q', asked = .truth q' ∧ q'.Typed)

include h hcore hs htyped

/-- The layer below is right about the question. -/
theorem settled_correct (hq : q.Typed) : (settled (below.answering impl s) question).Correct where
  truth q' b hq' hb := by
    change (if question = some (.truth q') then _ else _) = some b at hb
    split at hb
    next hask =>
      rcases htyped _ hask with heq | ⟨q'', heq, hq''⟩
      · cases heq
      · cases heq
        exact (h.call impl (.truth q') s hcore hq'' hs).1.of_toOption hb
    next => exact exactSolver_correct.truth q' b hq' hb
  validity q' v hq' hv := by
    change (if question = some (.validity q') then _ else _) = some v at hv
    split at hv
    next hask =>
      rcases htyped _ hask with heq | ⟨q'', heq, -⟩
      · cases heq
        exact (h.call impl (.validity q) s hcore hq hs).1.of_toOption hv
      · cases heq
    next => exact exactSolver_correct.validity q' v hq' hv
  value := exactSolver_correct.value
  initialValues := exactSolver_correct.initialValues

/-- It does not answer only for the reason given. -/
theorem settled_fails (hq : q.Typed) (hput : (below.put impl s question).1 = false)
    (hfails : (settled (below.answering impl s) question).Fails) : fails impl := by
  rcases hfails with ⟨q', hnone⟩ | ⟨q', hnone⟩
  · change (if question = some (.truth q') then _ else _) = none at hnone
    split at hnone
    next hask =>
      rcases htyped _ hask with heq | ⟨q'', heq, hq''⟩
      · cases heq
      · cases heq
        rw [hask] at hput
        exact (h.call impl (.truth q') s hcore hq'' hs).1.of_none hnone hput
    next => cases hnone
  · change (if question = some (.validity q') then _ else _) = none at hnone
    split at hnone
    next hask =>
      rcases htyped _ hask with heq | ⟨q'', heq, -⟩
      · cases heq
        rw [hask] at hput
        exact (h.call impl (.validity q) s hcore hq hs).1.of_none hnone hput
      · cases heq
    next => cases hnone

/-- A question leaves the layer below in order, and an assertion fails there only for the
validity of the query. -/
theorem put_spec (hq : q.Typed) : Inv (below.put impl s question).2
    ∧ ((below.put impl s question).1 = true →
      question = some (.validity q) ∧ CexCachingSolver.Residual q) := by
  cases hask : question with
  | none => exact ⟨hs, fun hput => by cases hput⟩
  | some asked =>
    rcases htyped asked hask with rfl | ⟨q', rfl, hq'⟩
    · obtain ⟨hmeets, hinv⟩ := h.call impl (.validity q) s hcore hq hs
      exact ⟨hinv, fun hput => ⟨rfl, hmeets.of_assertion hput⟩⟩
    · obtain ⟨hmeets, hinv⟩ := h.call impl (.truth q') s hcore hq' hs
      exact ⟨hinv, fun hput => (hmeets.of_assertion hput).elim⟩

omit htyped in
/-- A call of the cache over a sound layer, for the question that it asks. -/
theorem cached_spec {α : Type} {P : α → Prop} {cache : CachingSolver.CacheMap}
    {r : Outcome α × CachingSolver.CacheMap} {A : Prop} (hq : q.Typed) (hcache : cache.Sound)
    (htyped : ∀ asked, question = some asked →
      asked = .validity q ∨ ∃ q', asked = .truth q' ∧ q'.Typed)
    (hr : r.1.Meets P (settled (below.answering impl s) question).Fails False ∧ r.2.Sound)
    (hA : question = some (.validity q) → CexCachingSolver.Residual q → A) :
    (below.cached impl (cache, s) question r).1.Meets P (fails impl) A
      ∧ (below.cached impl (cache, s) question r).2.1.Sound
      ∧ Inv (below.cached impl (cache, s) question r).2.2 := by
  obtain ⟨hinv, hasserts⟩ := put_spec h hcore hs htyped hq
  cases hput : (below.put impl s question).1 with
  | true =>
    have hcached : below.cached impl (cache, s) question r
        = (.assertion, (cache, (below.put impl s question).2)) := by
      simp only [cached, hput, if_true]
    rw [hcached]
    exact ⟨hA (hasserts hput).1 (hasserts hput).2, hcache, hinv⟩
  | false =>
    have hcached : below.cached impl (cache, s) question r
        = (r.1, (r.2, (below.put impl s question).2)) := by
      simp only [cached, hput, Bool.false_eq_true, if_false]
    rw [hcached]
    have hfails := settled_fails h hcore hs htyped hq hput
    exact ⟨hr.1.imp (fun _ => id) hfails False.elim, hr.2, hinv⟩

omit hcore hs htyped in
theorem caching_sound : (below.caching compare).Sound fails fun st => st.1.Sound ∧ Inv st.2 := by
  refine ⟨⟨fun ce pv hmem => absurd hmem List.not_mem_nil, h.init⟩, ?_⟩
  rintro α impl c ⟨cache, s⟩ hcore hc ⟨hcache, hs⟩
  cases c with
  | truth q =>
    have htruth := typed_of_asked_truth compare cache (below.answering impl s) hc
    have hr := @CachingSolver.computeTruth_correct compare _ _ _
      (settled_correct h hcore hs (fun asked hasked => .inr (htruth asked hasked)) hc) hcache hc.ok
    rw [← CachingSolver.computeTruth_eq_of_agree settled_agree] at hr
    refine cached_spec h hcore hs hc hcache (fun asked hasked => .inr (htruth asked hasked)) hr ?_
    intro hvalidity
    obtain ⟨q', heq, -⟩ := htruth _ hvalidity
    cases heq
  | validity q =>
    have hvalidity := typed_of_asked_validity compare cache (below.answering impl s) hc
    have hr := @CachingSolver.computeValidity_correct compare _ _ _
      (settled_correct h hcore hs hvalidity hc) hcache hc.ok
    rw [← CachingSolver.computeValidity_eq_of_agree settled_agree] at hr
    exact cached_spec h hcore hs hc hcache hvalidity hr fun _ => id
  | value q =>
    obtain ⟨hmeets, hinv⟩ := h.call impl (.value q) s hcore hc hs
    exact ⟨hmeets, hcache, hinv⟩
  | initialValues q objects =>
    obtain ⟨hmeets, hinv⟩ := h.call impl (.initialValues q objects) s hcore hc hs
    exact ⟨hmeets, hcache, hinv⟩

end Caching

/-! ## Runs -/

/-- What a layer stores after a list of calls, each with the core solver as it behaves on it. -/
def after (layer : SolverLayer) (calls : List (SolverImpl × Σ α, SolverCall α)) : layer.Store :=
  calls.foldl (fun s c => (layer.call c.1 c.2.2 s).2) layer.init

theorem Sound.after {layer : SolverLayer} {Inv : layer.Store → Prop} (h : layer.Sound fails Inv)
    (calls : List (SolverImpl × Σ α, SolverCall α)) (hcalls : ∀ c ∈ calls, c.1.Correct ∧ c.2.2.Ok) :
    Inv (layer.after calls) := by
  induction calls using List.reverseRecOn with
  | nil => exact h.init
  | append_singleton calls c ih =>
    obtain ⟨hcore, hok⟩ := hcalls c (by simp)
    have hinv := ih fun c' hc' => hcalls c' (List.mem_append_left _ hc')
    rw [SolverLayer.after, List.foldl_append]
    exact (h.call c.1 c.2.2 _ hcore hok hinv).2

/-- A layer that an option adds. -/
theorem exists_sound_ite {option : Prop} [Decidable option] {layer below : SolverLayer}
    (h : (∃ Inv, below.Sound fails Inv) → ∃ Inv, layer.Sound fails Inv)
    (hbelow : ∃ Inv, below.Sound fails Inv) :
    ∃ Inv, (if option then layer else below).Sound fails Inv := by
  by_cases hoption : option
  · rw [if_pos hoption]
    exact h hbelow
  · rw [if_neg hoption]
    exact hbelow

end SolverLayer

open SolverLayer

/-- Whatever the options and after any calls, the chain gives the right answer to a query. It
fails only where the core solver does, or with `cex-cache-exp`. -/
theorem constructSolverChain_right [LinearOrder Expr] (compare : Expr → Expr → Ordering)
    (options : SolverOptions) (calls : List (SolverImpl × Σ α, SolverCall α))
    (hcalls : ∀ c ∈ calls, c.1.Correct ∧ c.2.2.Ok) {α : Type} (impl : SolverImpl)
    (hcore : impl.Correct) (c : SolverCall α) (hc : c.Ok) :
    ((constructSolverChain compare options).call impl c
        ((constructSolverChain compare options).after calls)).1.Meets c.Right
      (impl.FailsSomewhere ∨ options.cex.CexCacheExperimental = true) (Asserts c) := by
  let fails : SolverImpl → Prop := fun impl =>
    impl.FailsSomewhere ∨ options.cex.CexCacheExperimental = true
  obtain ⟨Inv, hsound⟩ : ∃ Inv, (constructSolverChain compare options).Sound fails Inv := by
    apply exists_sound_ite (fun ⟨Inv, hbelow⟩ => ⟨_, independent_sound hbelow⟩)
    apply exists_sound_ite (fun ⟨Inv, hbelow⟩ => ⟨_, caching_sound hbelow⟩)
    by_cases hcex : options.UseCexCache = true
    · rw [if_pos hcex]
      exact ⟨_, cexCaching_sound (fun _ => .inl) fun h _ => .inr h⟩
    · rw [if_neg hcex]
      exact ⟨_, core_sound fun _ => .inl⟩
  exact (hsound.call impl c _ hcore hc (hsound.after calls hcalls)).1

open CexCachingSolver in
/-- The whole chain, asked whether a byte is less than itself for the second time. -/
theorem constructSolverChain_right_byte : ∃ _ : LinearOrder Expr,
    ((constructSolverChain compare ⟨true, true, true, ⟨false, false⟩⟩).call byteSolver
        (.truth ⟨[], byteLtItself⟩)
        ((constructSolverChain compare ⟨true, true, true, ⟨false, false⟩⟩).after
          [(byteSolver, ⟨_, .truth ⟨[], byteLtItself⟩⟩)])).1.Meets
      (SolverCall.Right (.truth ⟨[], byteLtItself⟩)) (byteSolver.FailsSomewhere ∨ false = true)
      (Asserts (.truth ⟨[], byteLtItself⟩)) := by
  let order := someOrder
  refine ⟨order, constructSolverChain_right compare ⟨true, true, true, ⟨false, false⟩⟩
    [(byteSolver, ⟨_, .truth ⟨[], byteLtItself⟩⟩)] (fun c hc => ?_) byteSolver byteSolver_correct
    (.truth ⟨[], byteLtItself⟩) typed_byteLtItself⟩
  obtain rfl := List.mem_singleton.mp hc
  exact ⟨byteSolver_correct, typed_byteLtItself⟩

end Xklee
