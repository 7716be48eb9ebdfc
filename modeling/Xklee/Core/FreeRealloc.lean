/-
`handleFree` and `handleRealloc` of `lib/Core/SpecialFunctionHandler.cpp`, with `executeFree`
and `resolveExact` of `lib/Core/Executor.cpp`.

Both functions fork the state until the pointer is null, is the start of one object, or is
neither. `realloc` forks it for the size first: no bytes are freed rather than allocated. That
the object is on the heap is looked at when it is freed, and not when it is reallocated.

`isGlobal` is the field of `MemoryObject`; nothing else here reads it. Printing is left out.
-/
import Xklee.Core.AllocParts
import Xklee.Core.Resolution

set_option autoImplicit false

namespace Xklee

namespace MemoryExecutor

/-! ## The start of an object -/

/-- What `resolveExact` leaves: the states in which the pointer is the start of an object, in
`results`, and the state that it has terminated. -/
structure ExactResolution where
  executor : MemoryExecutor
  results : List (BoundObject × MemoryState)
  states : List (MemoryState × Ending)
  forks : List ForkCall

/-- The loop of `resolveExact` over the resolutions, and what is done with the state that is
left over. The number counts the forks. -/
def resolveExactEach (p : Expr) (name : String) (chances : ℕ → ForkChance) :
    ℕ → MemoryExecutor → MemoryState → List BoundObject → Option ExactResolution
  | _, ex, unbound, [] =>
      let (ex, x) :=
        ex.terminateStateOnError unbound ("memory error: invalid pointer: " ++ name) "ptr.err"
      some ⟨ex, [], [x], []⟩
  | n, ex, unbound, o :: rl =>
      let inBounds := EqExpr.create p (o.mo.getBaseExpr ex.pointerWidth)
      (ex.forkState unbound inBounds (chances n)).bind fun branches =>
        let results := (branches.first.map fun s => (o, s)).toList
        match branches.second with
        | none => some ⟨branches.executor, results, [], [branches.call]⟩
        | some unbound =>
            (resolveExactEach p name chances (n + 1) branches.executor unbound rl).map fun r =>
              ⟨r.executor, results ++ r.results, r.states, branches.call :: r.forks⟩

/-- `Executor::resolveExact`. -/
def resolveExact (ex : MemoryExecutor) (state : MemoryState) (p : Expr) (name : String)
    (chances : ℕ → ForkChance) : Option ExactResolution :=
  resolveExactEach p name chances 0 ex state (ex.resolve state p 0 fun _ => false).2

/-- The loops over the list that `resolveExact` has filled. -/
def forEach (work : ℕ → MemoryExecutor → BoundObject → MemoryState → Option MemoryResult) :
    ℕ → MemoryExecutor → List (BoundObject × MemoryState) → Option MemoryResult
  | _, ex, [] => some ⟨ex, [], []⟩
  | n, ex, (o, s) :: results =>
      (work n ex o s).bind fun r =>
        (forEach work (n + 1) r.executor results).map fun r' =>
          ⟨r'.executor, r.states ++ r'.states, r.forks ++ r'.forks⟩

/-- `resolveExact` and the loop over its results. -/
def resolveThen (ex : MemoryExecutor) (state : MemoryState) (p : Expr) (name : String)
    (chances : ℕ → ForkChance)
    (work : ℕ → MemoryExecutor → BoundObject → MemoryState → Option MemoryResult) :
    Option MemoryResult :=
  (ex.resolveExact state p name chances).bind fun r =>
    (forEach work 0 r.executor r.results).map fun r' =>
      ⟨r'.executor, r.states ++ r'.states, r.forks ++ r'.forks⟩

/-! ## The functions -/

/-- `Expr::createPointer(0)`, for an instruction that has a result. -/
def bindNull (ex : MemoryExecutor) (target : Bool) (s : MemoryState) : MemoryState :=
  if target then s.bindLocal (ConstantExpr.alloc 0 ex.pointerWidth) else s

section Handlers

variable (isGlobal : MemoryObject → Bool)

/-- What `executeFree` does with an object that the pointer is the start of. -/
def freeObject (target : Bool) (ex : MemoryExecutor) (o : BoundObject) (s : MemoryState) :
    MemoryExecutor × MemoryState × Ending :=
  if o.mo.isLocal then ex.terminateStateOnError s "free of alloca" "free.err"
  else if isGlobal o.mo then ex.terminateStateOnError s "free of global" "free.err"
  else (ex, ex.bindNull target (s.unbindObject o), .continues)

/-- `Executor::executeFree`. The chances are those of the calls of `fork`, in order. -/
def executeFree (ex : MemoryExecutor) (state : MemoryState) (address : Expr) (target : Bool)
    (chances : ℕ → ForkChance) : Option MemoryResult :=
  (ex.forkState state address.createIsZero (chances 0)).bind fun zeroPointer =>
    both zeroPointer
      (fun ex s => some ⟨ex, [(ex.bindNull target s, .continues)], []⟩)
      (fun ex s => ex.resolveThen s address "free" (fun n => chances (n + 1)) fun _ ex o s =>
        let (ex, x) := freeObject isGlobal target ex o s
        some ⟨ex, [x], []⟩)

/-- `handleFree`. A call of `free` has no result that is bound. -/
def handleFree (ex : MemoryExecutor) (state : MemoryState) (address : Expr)
    (chances : ℕ → ForkChance) : Option MemoryResult :=
  ex.executeFree isGlobal state address false chances

/-- The chances of the forks in `handleRealloc`: its own two, those in `executeFree`, in
`executeAlloc` for a null pointer, in `resolveExact`, and in each `executeAlloc` after it. -/
structure ReallocChances where
  zeroSize : ForkChance
  free : ℕ → ForkChance
  zeroPointer : ForkChance
  alloc : ℕ → ForkChance
  resolve : ℕ → ForkChance
  each : ℕ → ℕ → ForkChance

/-- `handleRealloc`. -/
def handleRealloc (ex : MemoryExecutor) (state : MemoryState) (address size : Expr)
    (site : AllocSite) (chances : ReallocChances) : Option MemoryResult :=
  (ex.forkState state size.createIsZero chances.zeroSize).bind fun zeroSize =>
    both zeroSize
      (fun ex s => ex.executeFree isGlobal s address true chances.free)
      (fun ex s =>
        (ex.forkState s address.createIsZero chances.zeroPointer).bind fun zeroPointer =>
          both zeroPointer
            (fun ex s => ex.executeAlloc size ⟨false, site, false, none⟩ chances.alloc s)
            (fun ex s => ex.resolveThen s address "realloc" chances.resolve fun n ex o s =>
              ex.executeAlloc size ⟨false, site, false, some o⟩ (chances.each n) s))

end Handlers

/-! ## The sides of `resolveExact` -/

section Exact

variable {ex ex' : MemoryExecutor} {parent unbound : MemoryState} {p : Expr} {name : String}
  {chances : ℕ → ForkChance} {rl : List BoundObject} {o : BoundObject}

theorem atBase_denotes (hp : p.WellTyped) (hpw : p.width = ex.pointerWidth) (σ : Env) :
    ∃ x : BitVec ex.pointerWidth, Denotes σ p x
      ∧ Denotes σ (EqExpr.create p (o.mo.getBaseExpr ex.pointerWidth))
        (BitVec.ofBool (x == BitVec.ofNat ex.pointerWidth o.address)) := by
  obtain ⟨x, hx⟩ := hp.denotes (σ := σ) hpw
  exact ⟨x, hx, EqExpr.create_denotes hx (denotes_alloc (hpw ▸ hp.width_pos))⟩

theorem atBase_isBool (hp : p.WellTyped) (hpw : p.width = ex.pointerWidth) :
    (EqExpr.create p (o.mo.getBaseExpr ex.pointerWidth)).IsBool := by
  obtain ⟨x, -, h⟩ := atBase_denotes (o := o) hp hpw fun _ _ => 0
  exact ⟨h.1, h.width_eq⟩

/-- The condition of the fork: the pointer is the start of the object. -/
theorem holds_atBase (hp : p.WellTyped) (hpw : p.width = ex.pointerWidth)
    (ho : o.address < 2 ^ ex.pointerWidth) (σ : Env) :
    (EqExpr.create p (o.mo.getBaseExpr ex.pointerWidth)).Holds σ
      ↔ ObjectState.address σ p = o.address := by
  obtain ⟨x, hx, h⟩ := atBase_denotes (o := o) hp hpw σ
  rw [h.holds_iff, beq_iff_eq, ← BitVec.toNat_inj, BitVec.toNat_ofNat, Nat.mod_eq_of_lt ho,
    ObjectState.address, hx.2]
  exact Iff.rfl

/-- What the loop of `resolveExact` makes of the assignments of `unbound`. -/
structure ExactlyResolved (ex : MemoryExecutor) (unbound : MemoryState) (p : Expr) (name : String)
    (rl : List BoundObject) (r : ExactResolution) : Prop where
  follows : ex.Follows r.executor
  free : r.executor.Free
  sides : ∀ x ∈ r.results, x.1 ∈ rl
    ∧ Side r.executor unbound (fun σ => ObjectState.address σ p = x.1.address) x.2
  apart : r.results.Pairwise fun x y => x.1.address ≠ y.1.address
  missing : ∀ o ∈ rl, (∀ s, (o, s) ∉ r.results) → ∀ σ, Satisfies σ unbound.constraints →
    ObjectState.address σ p ≠ o.address
  left : Parts r.states
    (fun σ => Satisfies σ unbound.constraints ∧ ∀ o ∈ rl, ObjectState.address σ p ≠ o.address)
    fun _ x => x.2 = .error ("memory error: invalid pointer: " ++ name) "ptr.err"

/-- Each fork takes the assignments of one object away from those that are left. -/
theorem resolveExactEach_resolves (hp : p.WellTyped) (hpw : p.width = ex.pointerWidth)
    (hchance : ∀ n, (chances n).atStaticLimit = false) (n : ℕ) (hgoing : ex.Going unbound)
    (hrl : ∀ o ∈ rl, o.address < 2 ^ ex.pointerWidth)
    (hapart : rl.Pairwise fun o o' => o.address ≠ o'.address) :
    ∃ r, resolveExactEach p name chances n ex unbound rl = some r
      ∧ ExactlyResolved ex unbound p name rl r := by
  induction rl generalizing n ex unbound with
  | nil =>
    have hsame := terminateStateOnError_same ex unbound
      ("memory error: invalid pointer: " ++ name) "ptr.err"
    refine ⟨_, rfl, hsame.follows,
      hgoing.free.terminateState _, fun x hx => absurd hx List.not_mem_nil, .nil,
      fun o ho => absurd ho List.not_mem_nil, .single (fun σ => ?_) fun _ _ => rfl⟩
    exact (and_iff_left fun o ho => absurd ho List.not_mem_nil).symm
  | cons o rl ih =>
    obtain ⟨ho, hrl⟩ := List.forall_mem_cons.mp hrl
    obtain ⟨hoapart, hapart⟩ := List.pairwise_cons.mp hapart
    have hbase := holds_atBase hp hpw ho
    obtain ⟨branches, hbranches, hsides⟩ :=
      hgoing.forkState (atBase_isBool (o := o) hp hpw) (hchance n)
    have hfollows := hsides.same.follows
    -- the state in which the pointer is the start of this object
    have hhere : ∀ x ∈ (branches.first.map fun s => (o, s)).toList, x.1 = o
        ∧ Side branches.executor unbound (fun σ => ObjectState.address σ p = x.1.address) x.2 := by
      intro x hx
      obtain ⟨s, hs, rfl⟩ := Option.map_eq_some_iff.mp (Option.mem_toList.mp hx)
      exact ⟨rfl, (hsides.first s hs).congr fun σ _ => hbase σ⟩
    have hnone : (∀ s, (o, s) ∉ (branches.first.map fun s => (o, s)).toList) →
        ∀ σ, Satisfies σ unbound.constraints → ObjectState.address σ p ≠ o.address := by
      intro hmissing σ hσ heq
      cases hfirst : branches.first with
      | none => exact hsides.noFirst hfirst σ hσ ((hbase σ).mpr heq)
      | some s =>
        refine hmissing s (Option.mem_toList.mpr ?_)
        rw [hfirst]
        rfl
    have hone : (branches.first.map fun s => (o, s)).toList.Pairwise
        fun x y => x.1.address ≠ y.1.address := by
      cases branches.first with
      | none => exact .nil
      | some s => exact List.pairwise_singleton _ _
    rw [resolveExactEach]
    dsimp only
    rw [hbranches, Option.bind_some]
    cases hsecond : branches.second with
    | none =>
      have hall := hsides.noSecond hsecond
      refine ⟨_, rfl, hfollows, hsides.free,
        fun x hx => ⟨(hhere x hx).1 ▸ List.mem_cons_self, (hhere x hx).2⟩, hone, ?_, .nil ?_⟩
      · intro o' ho' hmissing σ hσ
        rcases List.mem_cons.mp ho' with rfl | ho'
        · exact hnone hmissing σ hσ
        · rw [(hbase σ).mp (hall σ hσ)]
          exact hoapart o' ho'
      · exact fun σ hσ => hσ.2 o List.mem_cons_self ((hbase σ).mp (hall σ hσ.1))
    | some rest =>
      have hrest := hsides.second rest hsecond
      have hwidth := hfollows.pointerWidth
      obtain ⟨r, hr, hresolved⟩ := ih (hpw.trans hwidth.symm) (n + 1) hrest.going
        (hwidth.symm ▸ hrl) hapart
      refine ⟨_, Option.map_eq_some_iff.mpr ⟨r, hr, rfl⟩, hfollows.trans hresolved.follows,
        hresolved.free, ?_, ?_, ?_, ?_⟩
      · intro x hx
        rcases List.mem_append.mp hx with hx | hx
        · exact ⟨(hhere x hx).1 ▸ List.mem_cons_self,
            (hhere x hx).2.of_follows hresolved.free hresolved.follows⟩
        · obtain ⟨hmem, hside⟩ := hresolved.sides x hx
          refine ⟨List.mem_cons_of_mem _ hmem, hrest.trans hside fun σ hσ => ?_⟩
          rw [hbase, and_iff_right_iff_imp]
          exact fun heq heq' => hoapart x.1 hmem (heq'.symm.trans heq)
      · refine List.pairwise_append.mpr ⟨hone, hresolved.apart, fun x hx y hy => ?_⟩
        rw [(hhere x hx).1]
        exact hoapart y.1 (hresolved.sides y hy).1
      · intro o' ho' hmissing σ hσ heq
        have hmissing' : ∀ s, (o', s) ∉ r.results := fun s hs =>
          hmissing s (List.mem_append_right _ hs)
        rcases List.mem_cons.mp ho' with rfl | ho'
        · exact hnone (fun s hs => hmissing s (List.mem_append_left _ hs)) σ hσ heq
        · refine hresolved.missing o' ho' hmissing' σ ((hrest.satisfies σ).mpr ⟨hσ, ?_⟩) heq
          rw [hbase]
          exact fun heq' => hoapart o' ho' (heq'.symm.trans heq)
      · refine hresolved.left.congr (fun σ => ?_) fun _ _ _ => id
        rw [hrest.satisfies, hbase, List.forall_mem_cons, and_assoc]

variable {Q : Env → MemoryState × Ending → Prop}
  {work : ℕ → MemoryExecutor → BoundObject → MemoryState → Option MemoryResult}

/-- The loop over the results. -/
theorem forEach_yields (At : BoundObject → Env → Prop) {results : List (BoundObject × MemoryState)}
    (n : ℕ) (hfree : ex.Free) (hsides : ∀ x ∈ results, Side ex parent (At x.1) x.2)
    (hapart : results.Pairwise fun x y => ∀ σ, At x.1 σ → ¬At y.1 σ)
    (hwork : ∀ n ex' x, ex.Follows ex' → x ∈ results → Side ex' parent (At x.1) x.2 →
      ex'.Yields (fun σ => Satisfies σ x.2.constraints) Q (work n ex' x.1 x.2)) :
    ex.Yields (fun σ => Satisfies σ parent.constraints ∧ ∃ x ∈ results, At x.1 σ) Q
      (forEach work n ex results) := by
  induction results generalizing n ex with
  | nil =>
    refine ⟨_, rfl, .refl ex, hfree, .nil fun σ hσ => ?_⟩
    obtain ⟨-, x, hx, -⟩ := hσ
    exact absurd hx List.not_mem_nil
  | cons x results ih =>
    obtain ⟨hxside, hsides⟩ := List.forall_mem_cons.mp hsides
    obtain ⟨hxapart, hapart⟩ := List.pairwise_cons.mp hapart
    obtain ⟨r, hr, hfollows, hfree', hparts⟩ :=
      hwork n ex x (.refl ex) List.mem_cons_self hxside
    obtain ⟨r', hr', hfollows', hfree'', hparts'⟩ := ih (n + 1) hfree'
      (fun y hy => (hsides y hy).of_follows hfree' hfollows) hapart
      fun n ex' y hy hmem => hwork n ex' y (hfollows.trans hy) (List.mem_cons_of_mem _ hmem)
    have hreturns : forEach work n ex (x :: results)
        = some ⟨r'.executor, r.states ++ r'.states, r.forks ++ r'.forks⟩ := by
      rw [forEach, hr, Option.bind_some, hr', Option.map_some]
    refine ⟨_, hreturns, hfollows.trans hfollows', hfree'', hparts.append hparts' ?_ ?_⟩
    · rintro σ hσ ⟨-, y, hy, hyσ⟩
      exact hxapart y hy σ ((hxside.satisfies σ).mp hσ).2 hyσ
    · intro σ
      rw [hxside.satisfies, List.exists_mem_cons_iff, and_or_left]

/-- The rule for `resolveExact` with a loop over its results. -/
theorem resolveThen_yields (hp : p.WellTyped) (hpw : p.width = ex.pointerWidth)
    (hchance : ∀ n, (chances n).atStaticLimit = false) (hgoing : ex.Going parent)
    (hlayout : Layout ex.pointerWidth parent.objects)
    (hwork : ∀ n ex' o s, ex.Follows ex' → o ∈ parent.objects →
      Side ex' parent (fun σ => ObjectState.address σ p = o.address) s →
      ex'.Yields (fun σ => Satisfies σ s.constraints) Q (work n ex' o s))
    (hinvalid : ∀ σ x, Satisfies σ parent.constraints →
      (∀ o ∈ parent.objects, ObjectState.address σ p ≠ o.address) →
      x.2 = .error ("memory error: invalid pointer: " ++ name) "ptr.err" → Q σ x) :
    ex.Yields (fun σ => Satisfies σ parent.constraints) Q
      (ex.resolveThen parent p name chances work) := by
  obtain ⟨-, hnodup, hmem, -⟩ := resolve_exact hgoing.reliable hlayout hp hpw
  have hdistinct : (ex.resolve parent p 0 fun _ => false).2.Pairwise
      fun o o' => o.address ≠ o'.address := by
    refine hnodup.imp_of_mem fun {o o'} ho ho' hne haddress => hne ?_
    exact hlayout.eq_of_address ((hmem o).mp ho).1 ((hmem o').mp ho').1 haddress
  obtain ⟨r, hr, hresolved⟩ : ∃ r, ex.resolveExact parent p name chances = some r
      ∧ ExactlyResolved ex parent p name (ex.resolve parent p 0 fun _ => false).2 r :=
    resolveExactEach_resolves hp hpw hchance 0 hgoing
      (fun o ho => hlayout.address_lt ((hmem o).mp ho).1) hdistinct
  obtain ⟨r', hr', hfollows, hfree, hparts⟩ := forEach_yields
    (fun o σ => ObjectState.address σ p = o.address) 0 hresolved.free
    (fun x hx => (hresolved.sides x hx).2)
    (hresolved.apart.imp fun {x y} hne σ hx hy => hne (hx.symm.trans hy))
    fun n ex' x hex' hx hside => hwork n ex' x.1 x.2 (hresolved.follows.trans hex')
      ((hmem x.1).mp (hresolved.sides x hx).1).1 hside
  -- an object that the list has not is not one that the pointer may be the start of
  have hstart : ∀ σ, Satisfies σ parent.constraints → ∀ o ∈ parent.objects,
      ObjectState.address σ p = o.address → o ∈ (ex.resolve parent p 0 fun _ => false).2 := by
    intro σ hσ o ho heq
    exact (hmem o).mpr ⟨ho, σ, hσ, heq ▸ o.near_address⟩
  have hleft : Parts r.states (fun σ => Satisfies σ parent.constraints
      ∧ ∀ o ∈ (ex.resolve parent p 0 fun _ => false).2, ObjectState.address σ p ≠ o.address) Q := by
    refine hresolved.left.congr (fun σ => Iff.rfl) fun σ x hσ hx => hinvalid σ x hσ.1 ?_ hx
    exact fun o ho heq => hσ.2 o (hstart σ hσ.1 o ho heq) heq
  have hreturns : ex.resolveThen parent p name chances work
      = some ⟨r'.executor, r.states ++ r'.states, r.forks ++ r'.forks⟩ := by
    rw [resolveThen, hr, Option.bind_some, hr', Option.map_some]
  refine ⟨_, hreturns, hresolved.follows.trans hfollows, hfree,
    hleft.append hparts ?_ fun σ => ?_⟩
  · rintro σ ⟨-, hnone⟩ ⟨-, x, hx, heq⟩
    exact hnone x.1 (hresolved.sides x hx).1 heq
  · constructor
    · intro hσ
      by_cases hsome : ∃ x ∈ r.results, ObjectState.address σ p = x.1.address
      · exact .inr ⟨hσ, hsome⟩
      · refine .inl ⟨hσ, fun o ho heq => ?_⟩
        refine hresolved.missing o ho (fun s hs => hsome ⟨(o, s), hs, heq⟩) σ hσ heq
    · exact fun hσ => hσ.elim And.left And.left

end Exact

/-! ## Freeing -/

/-- What becomes of an assignment under which the pointer is `a` when it is freed. -/
inductive FreeOutcome (isGlobal : MemoryObject → Bool) (pointerWidth : ℕ) (target : Bool)
    (root : MemoryState) (a : ℕ) : MemoryState × Ending → Prop
  | null {s : MemoryState} (hnull : a = 0) (hobjects : s.objects = root.objects)
      (htarget : s.target = if target then some (ConstantExpr.alloc 0 pointerWidth) else root.target) :
      FreeOutcome isGlobal pointerWidth target root a (s, .continues)
  | freed {o : BoundObject} {s : MemoryState} (hpos : a ≠ 0) (ho : o ∈ root.objects)
      (hbase : a = o.address) (hheap : o.mo.isLocal = false ∧ isGlobal o.mo = false)
      (hobjects : ∀ p, p ∈ s.objects ↔ p ∈ root.objects ∧ p ≠ o)
      (htarget : s.target = if target then some (ConstantExpr.alloc 0 pointerWidth) else root.target) :
      FreeOutcome isGlobal pointerWidth target root a (s, .continues)
  | freeOfAlloca {o : BoundObject} {s : MemoryState} (hpos : a ≠ 0) (ho : o ∈ root.objects)
      (hbase : a = o.address) (hlocal : o.mo.isLocal = true) :
      FreeOutcome isGlobal pointerWidth target root a (s, .error "free of alloca" "free.err")
  | freeOfGlobal {o : BoundObject} {s : MemoryState} (hpos : a ≠ 0) (ho : o ∈ root.objects)
      (hbase : a = o.address) (hlocal : o.mo.isLocal = false) (hglobal : isGlobal o.mo = true) :
      FreeOutcome isGlobal pointerWidth target root a (s, .error "free of global" "free.err")
  | invalid {s : MemoryState} (hpos : a ≠ 0) (hnone : ∀ o ∈ root.objects, a ≠ o.address) :
      FreeOutcome isGlobal pointerWidth target root a
        (s, .error ("memory error: invalid pointer: " ++ "free") "ptr.err")

section Free

variable {ex : MemoryExecutor} {isGlobal : MemoryObject → Bool} {root s : MemoryState}
  {address : Expr} {target : Bool} {A : Env → Prop} {chances : ℕ → ForkChance} {o : BoundObject}

theorem bindNull_target (ex : MemoryExecutor) (target : Bool) (s : MemoryState) :
    (ex.bindNull target s).target
      = if target then some (ConstantExpr.alloc 0 ex.pointerWidth) else s.target := by
  cases target <;> rfl

theorem bindNull_objects (ex : MemoryExecutor) (target : Bool) (s : MemoryState) :
    (ex.bindNull target s).objects = s.objects := by
  cases target <;> rfl

theorem bindNull_constraints (ex : MemoryExecutor) (target : Bool) (s : MemoryState) :
    (ex.bindNull target s).constraints = s.constraints := by
  cases target <;> rfl

/-- The objects after one has been unbound. -/
theorem mem_unbindObject {pointerWidth : ℕ} (hlayout : Layout pointerWidth root.objects)
    (hobjects : s.objects = root.objects) (ho : o ∈ root.objects) (p : BoundObject) :
    p ∈ (s.unbindObject o).objects ↔ p ∈ root.objects ∧ p ≠ o := by
  show p ∈ KeyedList.alter BoundObject.address o.address (fun _ => none) s.objects ↔ _
  rw [hobjects, KeyedList.mem_alter_const_iff hlayout.sorted (by simp)]
  refine ⟨fun hp => ?_, fun hp => .inr ⟨hp.1, fun heq => hp.2 ?_⟩⟩
  · obtain ⟨hp, hne⟩ := hp.resolve_left (by simp)
    exact ⟨hp, fun heq => hne (congrArg BoundObject.address heq)⟩
  · exact hlayout.eq_of_address hp.1 ho heq

/-- What becomes of a state in which the pointer is the start of an object. -/
theorem freeObject_yields {pointerWidth : ℕ} (hpw : ex.pointerWidth = pointerWidth)
    (hlayout : Layout pointerWidth root.objects) (ho : o ∈ root.objects) (hside : Side ex root A s)
    (hbase : ∀ σ, A σ → ObjectState.address σ address = o.address
      ∧ ObjectState.address σ address ≠ 0) :
    ex.Yields (fun σ => Satisfies σ s.constraints)
      (fun σ => FreeOutcome isGlobal pointerWidth target root (ObjectState.address σ address))
      (some ⟨(freeObject isGlobal target ex o s).1, [(freeObject isGlobal target ex o s).2], []⟩) := by
  have hat : ∀ σ, Satisfies σ s.constraints → ObjectState.address σ address = o.address
      ∧ ObjectState.address σ address ≠ 0 := fun σ hσ =>
    hbase σ ((hside.satisfies σ).mp hσ).2
  have hreport := fun message => (terminateStateOnError_same ex s message "free.err").follows
  have hterminated := hside.going.free.terminateState s.toExecutionState
  rw [freeObject]
  split
  next hlocal =>
    exact ⟨_, rfl, hreport "free of alloca", hterminated,
      .single (fun σ => Iff.rfl) fun σ hσ => .freeOfAlloca (hat σ hσ).2 ho (hat σ hσ).1 hlocal⟩
  next hlocal =>
    have hnotLocal : o.mo.isLocal = false := Bool.not_eq_true _ ▸ hlocal
    split
    next hglobal =>
      exact ⟨_, rfl, hreport "free of global", hterminated,
        .single (fun σ => Iff.rfl) fun σ hσ =>
          .freeOfGlobal (hat σ hσ).2 ho (hat σ hσ).1 hnotLocal hglobal⟩
    next hglobal =>
      refine ⟨_, rfl, .refl ex, hside.going.free, .single (fun σ => ?_) fun σ hσ => ?_⟩
      · rw [bindNull_constraints]
        rfl
      · refine .freed (hat σ hσ).2 ho (hat σ hσ).1 ⟨hnotLocal, Bool.not_eq_true _ ▸ hglobal⟩
          (fun p => ?_) ?_
        · rw [bindNull_objects]
          exact mem_unbindObject hlayout hside.objects ho p
        · rw [bindNull_target, hpw, ← hside.target]
          rfl

/-- What `executeFree` makes of a state. -/
theorem executeFree_yields (isGlobal : MemoryObject → Bool) (target : Bool)
    (haddress : address.WellTyped) (hwidth : address.width = ex.pointerWidth)
    (hchance : ∀ n, (chances n).atStaticLimit = false)
    (hlayout : Layout ex.pointerWidth root.objects) (hside : Side ex root A s) :
    ex.Yields (fun σ => Satisfies σ s.constraints)
      (fun σ => FreeOutcome isGlobal ex.pointerWidth target root (ObjectState.address σ address))
      (ex.executeFree isGlobal s address target chances) := by
  obtain ⟨zeroPointer, hfork, hsides⟩ :=
    hside.going.forkState (eqZero_isBool haddress) (hchance 0)
  have hforked : ex.forkState s address.createIsZero (chances 0) = some zeroPointer := hfork
  rw [executeFree, hforked, Option.bind_some]
  apply hsides.both
  · intro ex' t hfollows ht
    refine ⟨_, rfl, .refl ex', ht.going.free, .single (fun σ => ?_) fun σ hσ => .null ?_ ?_ ?_⟩
    · rw [bindNull_constraints]
    · exact (holds_eqZero haddress σ).mp ((ht.satisfies σ).mp hσ).2
    · rw [bindNull_objects, ht.objects, hside.objects]
    · rw [bindNull_target, hfollows.pointerWidth, ht.target, hside.target]
  · intro ex' t hfollows ht
    have hroot := hside.trans ht fun σ _ => Iff.rfl
    have hpos : ∀ σ, Satisfies σ t.constraints → ObjectState.address σ address ≠ 0 := fun σ hσ =>
      (holds_eqZero haddress σ).not.mp ((ht.satisfies σ).mp hσ).2
    refine resolveThen_yields haddress (hwidth.trans hfollows.pointerWidth.symm)
      (fun n => hchance (n + 1)) hroot.going ?_ ?_ ?_
    · rw [hfollows.pointerWidth, hroot.objects]
      exact hlayout
    · intro n ex'' o u hfollows' ho hu
      refine freeObject_yields ((hfollows'.pointerWidth).trans hfollows.pointerWidth) hlayout
        (hroot.objects ▸ ho) (hroot.trans hu fun σ _ => Iff.rfl) fun σ hσ => ⟨hσ.2, ?_⟩
      exact (holds_eqZero haddress σ).not.mp hσ.1.2
    · intro σ x hσ hnone hx
      obtain ⟨x, ending⟩ := x
      obtain rfl : ending = _ := hx
      exact .invalid (hpos σ hσ) (hroot.objects ▸ hnone)

end Free

/-! ## Reallocating -/

/-- What becomes of an assignment under which the pointer is `a` when it is reallocated. No
bytes are freed; a null pointer allocates; an object on the heap is replaced. An object that is
not on the heap is not checked for, and nothing is said of it. -/
inductive ReallocOutcome (ex : MemoryExecutor) (isGlobal : MemoryObject → Bool) (site : AllocSite)
    (σ : Env) (view : ℕ → ByteMemory) (root : MemoryState) (size : Expr) (a : ℕ) :
    MemoryState × Ending → Prop
  | noSize {x : MemoryState × Ending} (hsize : (size.eval σ).toNat = 0)
      (h : FreeOutcome isGlobal ex.pointerWidth true root a x) :
      ReallocOutcome ex isGlobal site σ view root size a x
  | null {x : MemoryState × Ending} (hpos : (size.eval σ).toNat ≠ 0) (hnull : a = 0)
      (h : AllocOutcome ex ⟨false, site, false, none⟩ σ view root size x) :
      ReallocOutcome ex isGlobal site σ view root size a x
  | resized {o : BoundObject} {x : MemoryState × Ending} (hpos : (size.eval σ).toNat ≠ 0)
      (hnonNull : a ≠ 0) (ho : o ∈ root.objects) (hbase : a = o.address)
      (hheap : o.mo.isLocal = false ∧ isGlobal o.mo = false)
      (h : AllocOutcome ex ⟨false, site, false, some o⟩ σ view root size x) :
      ReallocOutcome ex isGlobal site σ view root size a x
  | notOnHeap {o : BoundObject} {x : MemoryState × Ending} (hpos : (size.eval σ).toNat ≠ 0)
      (hnonNull : a ≠ 0) (ho : o ∈ root.objects) (hbase : a = o.address)
      (hnot : o.mo.isLocal = true ∨ isGlobal o.mo = true) :
      ReallocOutcome ex isGlobal site σ view root size a x
  | invalid {s : MemoryState} (hpos : (size.eval σ).toNat ≠ 0) (hnonNull : a ≠ 0)
      (hnone : ∀ o ∈ root.objects, a ≠ o.address) :
      ReallocOutcome ex isGlobal site σ view root size a
        (s, .error ("memory error: invalid pointer: " ++ "realloc") "ptr.err")

/-- No `--max-static` percentage is exceeded. -/
structure ReallocChances.Below (chances : ReallocChances) : Prop where
  zeroSize : chances.zeroSize.atStaticLimit = false
  free : ∀ n, (chances.free n).atStaticLimit = false
  zeroPointer : chances.zeroPointer.atStaticLimit = false
  alloc : ∀ n, (chances.alloc n).atStaticLimit = false
  resolve : ∀ n, (chances.resolve n).atStaticLimit = false
  each : ∀ n m, (chances.each n m).atStaticLimit = false

section Realloc

variable {ex : MemoryExecutor} {isGlobal : MemoryObject → Bool} {state : MemoryState}
  {view : Env → ℕ → ByteMemory} {address size : Expr} {site : AllocSite}
  {chances : ReallocChances}

/-- What becomes of an object that the pointer is the start of. -/
theorem ReallocOutcome.of_object {σ : Env} {o : BoundObject} {x : MemoryState × Ending}
    (hpos : (size.eval σ).toNat ≠ 0) (hnonNull : ObjectState.address σ address ≠ 0)
    (ho : o ∈ state.objects) (hbase : ObjectState.address σ address = o.address)
    (h : AllocOutcome ex ⟨false, site, false, some o⟩ σ (view σ) state size x) :
    ReallocOutcome ex isGlobal site σ (view σ) state size (ObjectState.address σ address) x := by
  by_cases hlocal : o.mo.isLocal = true
  · exact .notOnHeap hpos hnonNull ho hbase (.inl hlocal)
  · by_cases hglobal : isGlobal o.mo = true
    · exact .notOnHeap hpos hnonNull ho hbase (.inr hglobal)
    · exact .resized hpos hnonNull ho hbase
        ⟨Bool.not_eq_true _ ▸ hlocal, Bool.not_eq_true _ ▸ hglobal⟩ h

variable (haddress : address.WellTyped) (hwidth : address.width = ex.pointerWidth)
  (hgoing : ex.Going state) (hholds : state.Holds ex.pointerWidth view)

include haddress hwidth hgoing hholds

/-- What `handleRealloc` makes of a state. -/
theorem handleRealloc_yields (isGlobal : MemoryObject → Bool) (hsize : size.WellTyped) (hsizew : size.width ≤ 64)
    (hsite : site ≠ .alloca) (hchances : chances.Below)
    (hfresh : ∀ o ∈ state.objects, ∀ n size, ex.memory.malloc n size ≠ o.mo.address) :
    ex.Yields (fun σ => Satisfies σ state.constraints)
      (fun σ => ReallocOutcome ex isGlobal site σ (view σ) state size
        (ObjectState.address σ address))
      (ex.handleRealloc isGlobal state address size site chances) := by
  obtain ⟨zeroSize, hfork, hsides⟩ := hgoing.forkState (eqZero_isBool hsize) hchances.zeroSize
  have hforked : ex.forkState state size.createIsZero chances.zeroSize = some zeroSize := hfork
  rw [handleRealloc, hforked, Option.bind_some]
  apply hsides.both
  · intro ex₁ s hfollows hs
    have hpw := hfollows.pointerWidth
    have hfree := executeFree_yields isGlobal true haddress
      (hwidth.trans hpw.symm) hchances.free (hpw.symm ▸ hholds.layout) hs
    rw [hpw] at hfree
    refine hfree.congr (fun σ => Iff.rfl) fun σ x hσ hout => .noSize ?_ hout
    exact (holds_eqZero hsize σ).mp ((hs.satisfies σ).mp hσ).2
  · intro ex₁ s hfollows hs
    obtain ⟨zeroPointer, hfork', hsides'⟩ :=
      hs.going.forkState (eqZero_isBool haddress) hchances.zeroPointer
    have hforked' : ex₁.forkState s address.createIsZero chances.zeroPointer = some zeroPointer :=
      hfork'
    rw [hforked', Option.bind_some]
    have hnonzero : ∀ σ, Satisfies σ s.constraints → (size.eval σ).toNat ≠ 0 := fun σ hσ =>
      (holds_eqZero hsize σ).not.mp ((hs.satisfies σ).mp hσ).2
    apply hsides'.both
    · intro ex₂ t hfollows' ht
      have hroot := hs.trans ht fun σ _ => Iff.rfl
      have hallocates : Allocates ex ⟨false, site, false, none⟩ view state :=
        ⟨hholds, fun _ h => absurd h (by simp), hfresh⟩
      have halloc := executeAlloc_yields hsize hsizew hchances.alloc hallocates hsite
        (hfollows.trans hfollows') hroot
      refine halloc.congr (fun σ => Iff.rfl) fun σ x hσ hout => .null ?_ ?_ hout
      · exact hnonzero σ ((ht.satisfies σ).mp hσ).1
      · exact (holds_eqZero haddress σ).mp ((ht.satisfies σ).mp hσ).2
    · intro ex₂ t hfollows' ht
      have hroot := hs.trans ht fun σ _ => Iff.rfl
      have hpw := (hfollows.trans hfollows').pointerWidth
      have hnonNull : ∀ σ, Satisfies σ t.constraints → (size.eval σ).toNat ≠ 0
          ∧ ObjectState.address σ address ≠ 0 := fun σ hσ =>
        ⟨hnonzero σ ((ht.satisfies σ).mp hσ).1,
          (holds_eqZero haddress σ).not.mp ((ht.satisfies σ).mp hσ).2⟩
      refine resolveThen_yields haddress (hwidth.trans hpw.symm) hchances.resolve hroot.going ?_ ?_ ?_
      · rw [hpw, hroot.objects]
        exact hholds.layout
      · intro n ex₃ o u hfollows'' ho hu
        have ho' : o ∈ state.objects := hroot.objects ▸ ho
        have hallocates : Allocates ex ⟨false, site, false, some o⟩ view state :=
          ⟨hholds, fun old hold => Option.some.inj hold ▸ ho', hfresh⟩
        have halloc := executeAlloc_yields hsize hsizew (hchances.each n) hallocates hsite
          ((hfollows.trans hfollows').trans hfollows'') (hroot.trans hu fun σ _ => Iff.rfl)
        refine halloc.congr (fun σ => Iff.rfl) fun σ x hσ hout => ?_
        obtain ⟨hσt, hbase⟩ := (hu.satisfies σ).mp hσ
        exact .of_object (hnonNull σ hσt).1 (hnonNull σ hσt).2 ho' hbase hout
      · intro σ x hσ hnone hx
        obtain ⟨x, ending⟩ := x
        obtain rfl : ending = _ := hx
        exact .invalid (hnonNull σ hσ).1 (hnonNull σ hσ).2 (hroot.objects ▸ hnone)

end Realloc

/-! ### Two objects -/

/-- An executor on a host that has memory behind the two objects. -/
noncomputable def roomyExecutor : MemoryExecutor :=
  { plainMemoryExecutor exactSolver with memory := ⟨fun _ _ => 12288, 0, 3⟩ }

/-- No percentage is exceeded, and `theRNG.getBool()` gives false. -/
def noChances : ReallocChances :=
  ⟨⟨false, false⟩, fun _ => ⟨false, false⟩, ⟨false, false⟩, fun _ => ⟨false, false⟩,
    fun _ => ⟨false, false⟩, fun _ _ => ⟨false, false⟩⟩

theorem noChances_below : noChances.Below :=
  ⟨rfl, fun _ => rfl, rfl, fun _ => rfl, fun _ => rfl, fun _ _ => rfl⟩

theorem going_roomyExecutor : roomyExecutor.Going twoObjects where
  free := ⟨rfl, rfl, rfl, rfl, rfl, rfl, rfl⟩
  ready := ⟨exactSolver_correct, exactSolver_widths, fun _ hc => absurd hc List.not_mem_nil⟩
  answers := exactSolver_answers
  isOpen := ⟨rfl, fun _ _ => 0, fun _ hc => absurd hc List.not_mem_nil⟩

theorem holds_twoObjects : twoObjects.Holds 64 fun _ _ _ => 0 := (accesses_twoObjects 0).holds

theorem malloc_roomyExecutor : ∀ o ∈ twoObjects.objects, ∀ n size,
    roomyExecutor.memory.malloc n size ≠ o.mo.address := by
  intro o ho n size
  rcases List.mem_cons.mp ho with rfl | ho
  · show (12288 : BitVec 64) ≠ 4096
    decide
  · rw [List.mem_singleton.mp ho]
    show (12288 : BitVec 64) ≠ 4104
    decide

/-- Where a null pointer is returned, no object has been unbound. -/
def KeepsOnNull (pointerWidth : ℕ) (state : MemoryState) (r : MemoryResult) : Prop :=
  ∀ x ∈ r.states, x.2 = .continues → x.1.target = some (ConstantExpr.alloc 0 pointerWidth) →
    ∀ o ∈ state.objects, o ∈ x.1.objects

end MemoryExecutor

end Xklee
