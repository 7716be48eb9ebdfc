/-
The states that a piece of the executor's work makes, in an executor in which nothing but the
solver decides a branch.

A piece of work takes a state and returns states that partition its assignments. A fork gives
each side of its condition to another piece; the states of the two pieces together partition
what the two sides had. What is said of single pieces is put together along the forks.
-/
import Xklee.Core.Alloc
import Xklee.Core.MemoryExploration

set_option autoImplicit false

namespace Xklee

/-- The states partition the assignments in `P`, and `Q` says what has become of each. -/
structure Parts (states : List (MemoryState × Ending)) (P : Env → Prop)
    (Q : Env → MemoryState × Ending → Prop) : Prop where
  sound : ∀ x ∈ states, ∀ σ, Satisfies σ x.1.constraints → P σ ∧ Q σ x
  apart : states.Pairwise fun x y => ∀ σ, Satisfies σ x.1.constraints →
    ¬Satisfies σ y.1.constraints
  covers : ∀ σ, P σ → ∃ x ∈ states, Satisfies σ x.1.constraints

namespace Parts

variable {states states' : List (MemoryState × Ending)} {P P' : Env → Prop}
  {Q Q' : Env → MemoryState × Ending → Prop}

theorem nil (h : ∀ σ, ¬P σ) : Parts [] P Q :=
  ⟨fun _ hx => absurd hx List.not_mem_nil, .nil, fun σ hσ => absurd hσ (h σ)⟩

theorem single {x : MemoryState × Ending} (hiff : ∀ σ, Satisfies σ x.1.constraints ↔ P σ)
    (hout : ∀ σ, P σ → Q σ x) : Parts [x] P Q where
  sound y hy σ hσ := by
    rw [List.mem_singleton.mp hy] at hσ ⊢
    exact ⟨(hiff σ).mp hσ, hout σ ((hiff σ).mp hσ)⟩
  apart := List.pairwise_singleton _ _
  covers σ hσ := ⟨x, List.mem_singleton_self x, (hiff σ).mpr hσ⟩

/-- The states of two pieces that share no assignment. -/
theorem append {P₀ : Env → Prop} (h : Parts states P Q) (h' : Parts states' P' Q)
    (hapart : ∀ σ, P σ → ¬P' σ) (hiff : ∀ σ, P₀ σ ↔ P σ ∨ P' σ) :
    Parts (states ++ states') P₀ Q where
  sound x hx σ hσ := by
    rcases List.mem_append.mp hx with hx | hx
    · exact ⟨(hiff σ).mpr (.inl (h.sound x hx σ hσ).1), (h.sound x hx σ hσ).2⟩
    · exact ⟨(hiff σ).mpr (.inr (h'.sound x hx σ hσ).1), (h'.sound x hx σ hσ).2⟩
  apart := List.pairwise_append.mpr ⟨h.apart, h'.apart, fun x hx y hy σ hσx hσy =>
    hapart σ (h.sound x hx σ hσx).1 (h'.sound y hy σ hσy).1⟩
  covers σ hσ := by
    rcases (hiff σ).mp hσ with hσ | hσ
    · obtain ⟨x, hx, hσx⟩ := h.covers σ hσ
      exact ⟨x, List.mem_append_left _ hx, hσx⟩
    · obtain ⟨x, hx, hσx⟩ := h'.covers σ hσ
      exact ⟨x, List.mem_append_right _ hx, hσx⟩

theorem congr (h : Parts states P Q) (hP : ∀ σ, P' σ ↔ P σ) (hQ : ∀ σ x, P σ → Q σ x → Q' σ x) :
    Parts states P' Q' where
  sound x hx σ hσ :=
    have h' := h.sound x hx σ hσ
    ⟨(hP σ).mpr h'.1, hQ σ x h'.1 h'.2⟩
  apart := h.apart
  covers σ hσ := h.covers σ ((hP σ).mp hσ)

end Parts

namespace MemoryExecutor

/-- What the executor does not change while it works. -/
structure Follows (ex ex' : MemoryExecutor) : Prop where
  solver : ex'.solver = ex.solver
  pointerWidth : ex'.pointerWidth = ex.pointerWidth
  isLittleEndian : ex'.isLittleEndian = ex.isLittleEndian
  malloc : ex'.memory.malloc = ex.memory.malloc

/-- The executor can work on the state, and may fork it. -/
structure Going (ex : MemoryExecutor) (state : MemoryState) : Prop where
  free : ex.Free
  ready : ex.Ready state
  answers : ex.solver.solver.Answers
  isOpen : Executor.Open state.toExecutionState

section Going

variable {ex ex' ex'' : MemoryExecutor} {state s : MemoryState} {condition : Expr}
  {chance : ForkChance}

theorem Follows.refl (ex : MemoryExecutor) : ex.Follows ex := ⟨rfl, rfl, rfl, rfl⟩

theorem Follows.trans (h : ex.Follows ex') (h' : ex'.Follows ex'') : ex.Follows ex'' :=
  ⟨h'.solver.trans h.solver, h'.pointerWidth.trans h.pointerWidth,
    h'.isLittleEndian.trans h.isLittleEndian, h'.malloc.trans h.malloc⟩

theorem SameMemory.follows (h : ex.SameMemory ex') : ex.Follows ex' :=
  ⟨h.solver, by rw [h.rest], by rw [h.rest], by rw [h.rest]⟩

theorem Going.reliable (h : ex.Going state) : ex.solver.Reliable state.constraints :=
  MemoryExecutor.reliable h.ready h.answers h.isOpen.satisfiable

/-- The executor may have worked on something else meanwhile. -/
theorem Going.of_follows (h : ex.Going state) (hfree : ex'.Free) (hfollows : ex.Follows ex') :
    ex'.Going state :=
  ⟨hfree, ⟨hfollows.solver ▸ h.ready.solver, hfollows.solver ▸ h.ready.widths, h.ready.isBool⟩,
    hfollows.solver ▸ h.answers, h.isOpen⟩

/-- The state with the assignments of `parent` on one side of a condition. -/
structure Side (ex : MemoryExecutor) (parent : MemoryState) (A : Env → Prop) (s : MemoryState) :
    Prop where
  going : ex.Going s
  objects : s.objects = parent.objects
  target : s.target = parent.target
  satisfies : ∀ σ, Satisfies σ s.constraints ↔ Satisfies σ parent.constraints ∧ A σ

/-- A state is a side of itself. -/
theorem Going.side (h : ex.Going state) : Side ex state (fun _ => True) state :=
  ⟨h, rfl, rfl, fun _ => (and_iff_left trivial).symm⟩

theorem Side.of_follows {A : Env → Prop} (h : Side ex state A s) (hfree : ex'.Free)
    (hfollows : ex.Follows ex') : Side ex' state A s :=
  ⟨h.going.of_follows hfree hfollows, h.objects, h.target, h.satisfies⟩

/-- A side of a side. -/
theorem Side.trans {A B C : Env → Prop} {t : MemoryState} (h : Side ex state A s)
    (h' : Side ex' s B t) (hiff : ∀ σ, Satisfies σ state.constraints → (A σ ∧ B σ ↔ C σ)) :
    Side ex' state C t where
  going := h'.going
  objects := h'.objects.trans h.objects
  target := h'.target.trans h.target
  satisfies σ := by
    rw [h'.satisfies, h.satisfies, and_assoc]
    exact and_congr_right fun hσ => hiff σ hσ

theorem Side.congr {A B : Env → Prop} (h : Side ex state A s)
    (hiff : ∀ σ, Satisfies σ state.constraints → (A σ ↔ B σ)) : Side ex state B s where
  going := h.going
  objects := h.objects
  target := h.target
  satisfies σ := by
    rw [h.satisfies]
    exact and_congr_right fun hσ => hiff σ hσ

/-- The two sides of a fork. -/
structure TwoSides (ex : MemoryExecutor) (state : MemoryState) (condition : Expr) (p : StatePair) :
    Prop where
  same : ex.SameMemory p.executor
  free : p.executor.Free
  first : ∀ s, p.first = some s → Side p.executor state (fun σ => condition.Holds σ) s
  second : ∀ s, p.second = some s → Side p.executor state (fun σ => ¬condition.Holds σ) s
  noFirst : p.first = none → ∀ σ, Satisfies σ state.constraints → ¬condition.Holds σ
  noSecond : p.second = none → ∀ σ, Satisfies σ state.constraints → condition.Holds σ

/-- A fork at a Bool condition. -/
theorem Going.forkState (h : ex.Going state) (he : condition.IsBool)
    (hchance : chance.atStaticLimit = false) :
    ∃ p, ex.forkState state condition chance = some p ∧ ex.TwoSides state condition p := by
  obtain ⟨f, hf, hffree, hfopen, hund⟩ :=
    h.free.fork h.reliable he h.isOpen.forkDisabled chance.getBool
  obtain ⟨p, hp, hpfree, hpopen, hpund⟩ : ∃ p, ex.forkState state condition chance = some p
      ∧ p.executor.Free
      ∧ (∀ s, p.first = some s ∨ p.second = some s → Executor.Open s.toExecutionState)
      ∧ p.call.Undecided := by
    refine ⟨_, Option.map_eq_some_iff.mpr ⟨f, hchance ▸ hf, rfl⟩, hffree, fun s hs => ?_, ?_⟩
    · rcases hs with hs | hs
      · obtain ⟨t, ht, rfl⟩ := Option.map_eq_some_iff.mp hs
        exact hfopen t (.inl ht)
      · obtain ⟨t, ht, rfl⟩ := Option.map_eq_some_iff.mp hs
        exact hfopen t (.inr ht)
    · rw [ForkCall.Undecided, hchance]
      exact hund
  have hsplits := forkState_splits h.ready he hp
  have hgoing : ∀ s, p.first = some s ∨ p.second = some s → p.executor.Ready s →
      p.executor.Going s := fun s hs hready =>
    ⟨hpfree, hready, hsplits.executor.solver ▸ h.answers, hpopen s hs⟩
  refine ⟨p, hp, hsplits.executor, hpfree, fun s hs => ?_, fun s hs => ?_, fun hnone σ hσ hc => ?_,
    fun hnone σ hσ => ?_⟩
  · have hside := hsplits.first s hs
    refine ⟨hgoing s (.inl hs) hside.ready, hside.objects, hside.target, fun σ =>
      ⟨hside.sound σ, fun h => ?_⟩⟩
    obtain ⟨hσ, hc⟩ := h
    obtain ⟨t, ht | ht, hσt⟩ := hsplits.covers hpund σ hσ
    · obtain rfl : s = t := Option.some.inj (hs.symm.trans ht)
      exact hσt
    · exact absurd hc ((hsplits.second t ht).sound σ hσt).2
  · have hside := hsplits.second s hs
    refine ⟨hgoing s (.inr hs) hside.ready, hside.objects, hside.target, fun σ =>
      ⟨hside.sound σ, fun h => ?_⟩⟩
    obtain ⟨hσ, hc⟩ := h
    obtain ⟨t, ht | ht, hσt⟩ := hsplits.covers hpund σ hσ
    · exact absurd ((hsplits.first t ht).sound σ hσt).2 hc
    · obtain rfl : s = t := Option.some.inj (hs.symm.trans ht)
      exact hσt
  · obtain ⟨t, ht | ht, hσt⟩ := hsplits.covers hpund σ hσ
    · exact absurd (hnone.symm.trans ht) (by simp)
    · exact ((hsplits.second t ht).sound σ hσt).2 hc
  · obtain ⟨t, ht | ht, hσt⟩ := hsplits.covers hpund σ hσ
    · exact ((hsplits.first t ht).sound σ hσt).2
    · exact absurd (hnone.symm.trans ht) (by simp)

end Going

/-! ## Pieces of work -/

/-- A piece of work returns, and its states partition the assignments in `P`. -/
def Yields (ex : MemoryExecutor) (P : Env → Prop) (Q : Env → MemoryState × Ending → Prop)
    (result : Option MemoryResult) : Prop :=
  ∃ r, result = some r ∧ ex.Follows r.executor ∧ r.executor.Free ∧ Parts r.states P Q

/-- What is done with one side of a fork, if there is such a state. -/
def onSide (ex : MemoryExecutor) (work : MemoryExecutor → MemoryState → Option MemoryResult) :
    Option MemoryState → Option MemoryResult
  | none => some ⟨ex, [], []⟩
  | some s => work ex s

/-- What is done with the two sides of a fork, one after the other. -/
def both (p : StatePair) (first second : MemoryExecutor → MemoryState → Option MemoryResult) :
    Option MemoryResult :=
  (onSide p.executor first p.first).bind fun r =>
    (onSide r.executor second p.second).map fun r' =>
      ⟨r'.executor, r.states ++ r'.states, p.call :: (r.forks ++ r'.forks)⟩

section Yields

variable {ex : MemoryExecutor} {state : MemoryState} {condition : Expr} {p : StatePair}
  {Q : Env → MemoryState × Ending → Prop}

theorem Yields.congr {P P' : Env → Prop} {Q' : Env → MemoryState × Ending → Prop}
    {result : Option MemoryResult} (h : ex.Yields P Q result) (hP : ∀ σ, P' σ ↔ P σ)
    (hQ : ∀ σ x, P σ → Q σ x → Q' σ x) : ex.Yields P' Q' result := by
  obtain ⟨r, hr, hfollows, hfree, hparts⟩ := h
  exact ⟨r, hr, hfollows, hfree, hparts.congr hP hQ⟩

/-- The rule for one side of a fork. -/
theorem side_yields {ex₀ : MemoryExecutor} {A : Env → Prop} {side : Option MemoryState}
    {work : MemoryExecutor → MemoryState → Option MemoryResult} (hfree : ex.Free)
    (hside : ∀ s, side = some s → Side ex₀ state A s) (hfollows : ex₀.Follows ex)
    (hnone : side = none → ∀ σ, Satisfies σ state.constraints → ¬A σ)
    (hwork : ∀ s, Side ex state A s → ex.Yields (fun σ => Satisfies σ s.constraints) Q (work ex s)) :
    ex.Yields (fun σ => Satisfies σ state.constraints ∧ A σ) Q (onSide ex work side) := by
  cases hs : side with
  | none => exact ⟨_, rfl, .refl ex, hfree, .nil fun σ h => hnone hs σ h.1 h.2⟩
  | some s =>
    have h := (hside s hs).of_follows hfree hfollows
    exact (hwork s h).congr (fun σ => (h.satisfies σ).symm) fun _ _ _ => id

/-- The rule for a fork: each side is given to a piece of work. -/
theorem TwoSides.both {first second : MemoryExecutor → MemoryState → Option MemoryResult}
    (h : ex.TwoSides state condition p)
    (hfirst : ∀ ex' s, ex.Follows ex' → Side ex' state (fun σ => condition.Holds σ) s →
      ex'.Yields (fun σ => Satisfies σ s.constraints) Q (first ex' s))
    (hsecond : ∀ ex' s, ex.Follows ex' → Side ex' state (fun σ => ¬condition.Holds σ) s →
      ex'.Yields (fun σ => Satisfies σ s.constraints) Q (second ex' s)) :
    ex.Yields (fun σ => Satisfies σ state.constraints) Q (both p first second) := by
  have hstart := h.same.follows
  obtain ⟨r, hr, hfollows, hfree, hparts⟩ := side_yields h.free h.first (.refl _) h.noFirst
    fun s hs => hfirst _ s hstart hs
  obtain ⟨r', hr', hfollows', hfree', hparts'⟩ := side_yields hfree h.second hfollows
    (fun hnone σ hσ hnot => hnot (h.noSecond hnone σ hσ))
    fun s hs => hsecond _ s (hstart.trans hfollows) hs
  have hreturns : MemoryExecutor.both p first second = some ⟨r'.executor, r.states ++ r'.states,
      p.call :: (r.forks ++ r'.forks)⟩ := by
    unfold MemoryExecutor.both
    rw [hr, Option.bind_some, hr', Option.map_some]
  refine ⟨_, hreturns, hstart.trans (hfollows.trans hfollows'), hfree', hparts.append hparts'
    (fun σ hσ hσ' => hσ'.2 hσ.2) fun σ => ⟨fun hσ => ?_, fun hσ => hσ.elim And.left And.left⟩⟩
  exact (Classical.em (condition.Holds σ)).imp (⟨hσ, ·⟩) (⟨hσ, ·⟩)

/-- The side of a fork that is reported. -/
def reportSide (ex : MemoryExecutor)
    (report : MemoryExecutor → MemoryState → MemoryExecutor × MemoryState × Ending) :
    Option MemoryState → MemoryExecutor × List (MemoryState × Ending)
  | none => (ex, [])
  | some s => ((report ex s).1, [(report ex s).2])

/-- `reportThen` is the work on the other side, behind what is reported. -/
theorem reportThen_eq (p : StatePair) (reported other : Option MemoryState)
    (report : MemoryExecutor → MemoryState → MemoryExecutor × MemoryState × Ending)
    (rest : MemoryExecutor → MemoryState → Option MemoryResult) :
    reportThen p reported other report rest =
      (onSide (reportSide p.executor report reported).1 rest other).map fun r =>
        ⟨r.executor, (reportSide p.executor report reported).2 ++ r.states, p.call :: r.forks⟩ := by
  cases other with
  | none =>
    show _ = some (MemoryResult.mk _ (_ ++ []) [p.call])
    rw [List.append_nil]
    cases reported <;> rfl
  | some s => cases reported <;> rfl

/-- The rule for a fork of which one side is reported before the other one goes on. -/
theorem reportThen_yields {A B : Env → Prop} {reported other : Option MemoryState}
    {report : MemoryExecutor → MemoryState → MemoryExecutor × MemoryState × Ending}
    {rest : MemoryExecutor → MemoryState → Option MemoryResult}
    (hstart : ex.SameMemory p.executor) (hfree : p.executor.Free)
    (hreported : ∀ s, reported = some s → Side p.executor state A s)
    (hother : ∀ s, other = some s → Side p.executor state B s)
    (hnoReported : reported = none → ∀ σ, Satisfies σ state.constraints → ¬A σ)
    (hnoOther : other = none → ∀ σ, Satisfies σ state.constraints → ¬B σ)
    (hsplit : ∀ σ, B σ ↔ ¬A σ)
    (hreport : ∀ ex' s, ex.Follows ex' → Side ex' state A s → ex'.SameMemory (report ex' s).1
      ∧ (report ex' s).1.Free ∧ (report ex' s).2.1.constraints = s.constraints
      ∧ ∀ σ, Satisfies σ s.constraints → Q σ (report ex' s).2)
    (hrest : ∀ ex' s, ex.Follows ex' → Side ex' state B s →
      ex'.Yields (fun σ => Satisfies σ s.constraints) Q (rest ex' s)) :
    ex.Yields (fun σ => Satisfies σ state.constraints) Q
      (reportThen p reported other report rest) := by
  obtain ⟨ex₁, states, hstates, hfollows, hfree₁, hparts⟩ : ∃ ex₁ states,
      reportSide p.executor report reported = (ex₁, states)
      ∧ p.executor.Follows ex₁ ∧ ex₁.Free
      ∧ Parts states (fun σ => Satisfies σ state.constraints ∧ A σ) Q := by
    cases hs : reported with
    | none => exact ⟨_, _, rfl, .refl _, hfree, .nil fun σ h => hnoReported hs σ h.1 h.2⟩
    | some s =>
      have hside := hreported s hs
      obtain ⟨hsame, hfree', hconstraints, hout⟩ := hreport _ s hstart.follows hside
      refine ⟨_, _, rfl, hsame.follows, hfree', .single (fun σ => ?_) fun σ hσ => ?_⟩
      · rw [hconstraints, hside.satisfies]
      · exact hout σ ((hside.satisfies σ).mpr hσ)
  obtain ⟨r, hr, hfollows', hfree', hparts'⟩ := side_yields hfree₁ hother hfollows hnoOther
    fun s hs => hrest _ s (hstart.follows.trans hfollows) hs
  rw [reportThen_eq, hstates]
  refine ⟨_, Option.map_eq_some_iff.mpr ⟨r, hr, rfl⟩,
    hstart.follows.trans (hfollows.trans hfollows'), hfree', hparts.append hparts'
      (fun σ hσ hσ' => (hsplit σ).mp hσ'.2 hσ.2) fun σ => ⟨fun hσ => ?_, fun hσ =>
        hσ.elim And.left And.left⟩⟩
  exact (Classical.em (A σ)).imp (⟨hσ, ·⟩) fun hnot => ⟨hσ, (hsplit σ).mpr hnot⟩

end Yields

end MemoryExecutor

end Xklee
