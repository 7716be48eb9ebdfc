/-
Runs of a machine that answers calls.

A machine keeps a state and answers one call after the other. An invariant that
every call keeps, together with a postcondition that every answer meets under
the invariant, holds along every run.
-/
import Mathlib.Data.List.Forall2

set_option autoImplicit false

universe u v w

variable {S : Type u} {C : Type v} {A : Type w}

/-- The state after a list of calls, and the answers to them. -/
def run (step : S → C → A × S) : S → List C → List A × S
  | s, [] => ([], s)
  | s, c :: cs =>
      let (a, s') := step s c
      let (as, s'') := run step s' cs
      (a :: as, s'')

theorem run_cons (step : S → C → A × S) (s : S) (c : C) (cs : List C) :
    run step s (c :: cs)
      = ((step s c).1 :: (run step (step s c).2 cs).1, (run step (step s c).2 cs).2) := rfl

theorem run_append (step : S → C → A × S) (s : S) (cs cs' : List C) :
    (run step s (cs ++ cs')).2 = (run step (run step s cs).2 cs').2 := by
  induction cs generalizing s with
  | nil => rfl
  | cons c cs ih =>
    rw [List.cons_append, run_cons, run_cons]
    exact ih _

/-- Every step of a run meets a condition on the call and the state before it. -/
def AllSteps (step : S → C → A × S) (P : S → C → Prop) : S → List C → Prop
  | _, [] => True
  | s, c :: cs => P s c ∧ AllSteps step P (step s c).2 cs

variable {step : S → C → Option (A × S)} {s init : S} {c : C} {cs : List C} {P Q Ok : S → C → Prop}
  {Inv : S → Prop} {T B : Type*} {astep : T → C → B × T} {t : T}

theorem allSteps_of_forall {step : S → C → A × S} {P : C → Prop} (s : S) (h : ∀ c ∈ cs, P c) :
    AllSteps step (fun _ => P) s cs := by
  induction cs generalizing s with
  | nil => trivial
  | cons c cs ih =>
    exact ⟨h c List.mem_cons_self, ih _ (fun c' hc' => h c' (List.mem_cons_of_mem c hc'))⟩

theorem AllSteps.and {step : S → C → A × S} (hP : AllSteps step P s cs) (hQ : AllSteps step Q s cs) :
    AllSteps step (fun s c => P s c ∧ Q s c) s cs := by
  induction cs generalizing s with
  | nil => trivial
  | cons c cs ih => exact ⟨⟨hP.1, hQ.1⟩, ih hP.2 hQ.2⟩

/-- The rule for runs: the invariant holds at the end, and the answers meet the
postcondition one by one. -/
theorem run_spec {step : S → C → A × S} {Post : C → A → Prop}
    (hstep : ∀ s c, Inv s → Ok s c → Post c (step s c).1 ∧ Inv (step s c).2) (hs : Inv s)
    (hcs : AllSteps step Ok s cs) :
    List.Forall₂ Post cs (run step s cs).1 ∧ Inv (run step s cs).2 := by
  induction cs generalizing s with
  | nil => exact ⟨.nil, hs⟩
  | cons c cs ih =>
    have hc := hstep s c hs hcs.1
    have hrest := ih hc.2 hcs.2
    rw [run_cons]
    exact ⟨.cons hc.1 hrest.1, hrest.2⟩

/-- The rule for invariants: what holds at first and is kept by every call holds at the
end. -/
theorem run_invariant {step : S → C → A × S} (hstep : ∀ s c, Inv s → Ok s c → Inv (step s c).2)
    (hs : Inv s) (hcs : AllSteps step Ok s cs) : Inv (run step s cs).2 := by
  induction cs generalizing s with
  | nil => exact hs
  | cons c cs ih =>
    have hc : Inv (step s c).2 := hstep s c hs hcs.1
    rw [run_cons]
    exact ih hc hcs.2

/-- The rule for simulations: a machine whose steps match those of a second machine, as
long as they meet a condition, gives matching answers and ends in a matching state. -/
theorem run_simulates {step : S → C → A × S} {Rel : S → T → Prop} (Post : A → B → Prop)
    (hstep : ∀ s t c, Rel s t → Ok s c →
      Post (step s c).1 (astep t c).1 ∧ Rel (step s c).2 (astep t c).2) (hs : Rel s t)
    (hcs : AllSteps step Ok s cs) :
    List.Forall₂ Post (run step s cs).1 (run astep t cs).1
      ∧ Rel (run step s cs).2 (run astep t cs).2 := by
  induction cs generalizing s t with
  | nil => exact ⟨.nil, hs⟩
  | cons c cs ih =>
    have hc := hstep s t c hs hcs.1
    have hrest := ih hc.2 hcs.2
    rw [run_cons, run_cons]
    exact ⟨.cons hc.1 hrest.1, hrest.2⟩

/-! ## Machines that may fail -/

/-- A run of a machine whose calls may fail. -/
def runOption (step : S → C → Option (A × S)) : S → List C → Option (List A × S)
  | s, [] => some ([], s)
  | s, c :: cs =>
      match step s c with
      | none => none
      | some (a, s') => (runOption step s' cs).map fun (as, s'') => (a :: as, s'')

theorem runOption_cons {s' s'' : S} {a : A} {as : List A} (hstep : step s c = some (a, s'))
    (hrun : runOption step s' cs = some (as, s'')) :
    runOption step s (c :: cs) = some (a :: as, s'') := by
  rw [runOption, hstep]
  exact congrArg (Option.map _) hrun

/-- The rule for simulations: a machine all of whose steps succeed and match those
of a second machine, as long as they meet a condition, runs to the end, and so do its
answers. -/
theorem runOption_simulates (Rel : S → T → Prop) {Ok : T → C → Prop} {Post : A → B → Prop}
    (hstep : ∀ s t c, Rel s t → Ok t c → ∃ a s', step s c = some (a, s')
      ∧ Post a (astep t c).1 ∧ Rel s' (astep t c).2) (hs : Rel s t) (hcs : AllSteps astep Ok t cs) :
    ∃ as s', runOption step s cs = some (as, s') ∧ List.Forall₂ Post as (run astep t cs).1
      ∧ Rel s' (run astep t cs).2 := by
  induction cs generalizing s t with
  | nil => exact ⟨[], s, rfl, .nil, hs⟩
  | cons c cs ih =>
    obtain ⟨a, s₁, hs₁, hpost, hrel⟩ := hstep s t c hs hcs.1
    obtain ⟨as, s', hs', hposts, hrel'⟩ := ih hrel hcs.2
    exact ⟨a :: as, s', runOption_cons hs₁ hs', .cons hpost hposts, hrel'⟩

/-- The states that calls lead to from a first state, when every call meets a condition
on the call and the state before it. -/
inductive Reaches (step : S → C → Option (A × S)) (Ok : S → C → Prop) (init : S) : S → Prop
  | init : Reaches step Ok init init
  | step {s s' : S} {c : C} {a : A} (hs : Reaches step Ok init s) (hok : Ok s c)
      (hstep : step s c = some (a, s')) : Reaches step Ok init s'

/-- The rule for reachable states: what holds at first and is kept by every call holds. -/
theorem Reaches.invariant (hinit : Inv init)
    (hstep : ∀ s c a s', Inv s → Ok s c → step s c = some (a, s') → Inv s')
    (h : Reaches step Ok init s) : Inv s := by
  induction h with
  | init => exact hinit
  | step _ hok heq ih => exact hstep _ _ _ _ ih hok heq

/-- A call that succeeds leads to the state it gives. -/
theorem Reaches.get (hs : Reaches step Ok init s) (hok : Ok s c) (hsome : (step s c).isSome) :
    Reaches step Ok init ((step s c).get hsome).2 :=
  .step hs hok (Option.some_get hsome).symm

/-- Fewer calls are allowed by a stronger condition. -/
theorem Reaches.mono {Ok' : S → C → Prop} (h : Reaches step Ok init s)
    (hok : ∀ s c, Ok s c → Ok' s c) : Reaches step Ok' init s := by
  induction h with
  | init => exact .init
  | step _ hc heq ih => exact .step ih (hok _ _ hc) heq

/-- Every call of a run of a machine that may fail meets a condition on the call and the state
before it. -/
def AllCalls (step : S → C → Option (A × S)) (P : S → C → Prop) : S → List C → Prop
  | _, [] => True
  | s, c :: cs => P s c ∧ ∀ a s', step s c = some (a, s') → AllCalls step P s' cs

/-- Two conditions that agree under an invariant hold along the same runs, when the second one
keeps the invariant. -/
theorem allCalls_congr (hiff : ∀ s c, Inv s → (P s c ↔ Q s c))
    (hstep : ∀ s c a s', Inv s → Q s c → step s c = some (a, s') → Inv s') (hs : Inv s)
    (cs : List C) : AllCalls step P s cs ↔ AllCalls step Q s cs := by
  induction cs generalizing s with
  | nil => exact Iff.rfl
  | cons c cs ih =>
    unfold AllCalls
    rw [hiff s c hs]
    refine and_congr_right fun hq => forall_congr' fun a => forall_congr' fun s' => ?_
    exact imp_congr_right fun heq => ih (hstep s c a s' hs hq heq)

/-! ## Persistent machines -/

section Versions

variable {T : Type*} {B : Type*}

/-- Every call is made on some earlier state and adds the state it leads to. A version
that is not there yet stands for a new machine. -/
def stepVersion (step : S → C → A × S) (init : S) (versions : List S) (c : ℕ × C) :
    A × List S :=
  let (a, s) := step (versions.getD c.1 init) c.2
  (a, versions ++ [s])

/-- No call changes an earlier version. -/
theorem run_stepVersion_prefix (step : S → C → A × S) (init : S) (versions : List S)
    (cs : List (ℕ × C)) : versions <+: (run (stepVersion step init) versions cs).2 := by
  induction cs generalizing versions with
  | nil => exact List.prefix_rfl
  | cons c cs ih =>
    rw [run_cons]
    exact (List.prefix_append _ _).trans (ih _)

/-- A machine that simulates another does so in every version. -/
theorem stepVersion_simulates {step : S → C → A × S} {astep : T → C → B × T} {init : S}
    {ainit : T} {Rel : S → T → Prop} (Post : A → B → Prop) (hinit : Rel init ainit)
    (hstep : ∀ s t c, Rel s t →
      Post (step s c).1 (astep t c).1 ∧ Rel (step s c).2 (astep t c).2)
    (versions : List S) (aversions : List T) (c : ℕ × C) (h : List.Forall₂ Rel versions aversions) :
    Post (stepVersion step init versions c).1 (stepVersion astep ainit aversions c).1
      ∧ List.Forall₂ Rel (stepVersion step init versions c).2
          (stepVersion astep ainit aversions c).2 := by
  have hget : Rel (versions.getD c.1 init) (aversions.getD c.1 ainit) := by
    induction h generalizing c with
    | nil => exact hinit
    | cons hhead _ ih =>
      obtain ⟨i, c⟩ := c
      cases i with
      | zero => exact hhead
      | succ i => exact ih (i, c)
  have hnext := hstep _ _ c.2 hget
  exact ⟨hnext.1, List.rel_append h (.cons hnext.2 .nil)⟩

end Versions
