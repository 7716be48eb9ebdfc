/-
Replaying a path file: `fork` with `--replay-path`.

The replay goes through the conditions that a recorded state came to. Every fork that is not
internal takes one bit of the file, and leaves the state on the side that the bit says; an
internal fork takes none, and the replay goes on with the side that the recorded state was
on. Under an assignment that goes along the recorded path no assertion of `fork` fails, and
the replayed state comes to the constraints of the recorded one.
-/
import Xklee.Core.PathRecord

set_option autoImplicit false

namespace Xklee

/-- What a replay comes to. -/
inductive ReplayResult
  | finished (ex : Executor) (state : ExecutionState)
  /-- "Query timed out (fork)." -/
  | timedOut
  /-- An assertion failed, or the state was not left on the side that was recorded. -/
  | diverged

/-- The state on one side of a fork. -/
def ForkResult.side (r : ForkResult) (direction : Bool) : Option ExecutionState :=
  if direction then r.trueState else r.falseState

/-- The replay has taken the bits up to a position and come to what `P` says, or it asked a
query about a condition of the path that the solver fails on. -/
def ReplayResult.Agrees (solver : TimingSolver) (path : List PathEvent) (position : ℕ)
    (P : Env → Prop) : ReplayResult → Prop
  | .finished ex state => ex.replayPosition = position ∧ ∀ τ, Satisfies τ state.constraints ↔ P τ
  | .timedOut => ∃ e ∈ path, ∃ constraints, solver.evaluate constraints e.condition = none
  | .diverged => False

theorem follows_cons {σ : Env} {e : PathEvent} {path : List PathEvent} :
    Follows σ (e :: path) ↔ e.Holds σ ∧ Follows σ path := List.forall_mem_cons

theorem ReplayResult.Agrees.mono {solver : TimingSolver} {path path' : List PathEvent}
    {position : ℕ} {P Q : Env → Prop} {r : ReplayResult} (h : r.Agrees solver path position P)
    (hpath : path ⊆ path') (hiff : ∀ τ, P τ ↔ Q τ) : r.Agrees solver path' position Q := by
  cases r with
  | finished ex state => exact ⟨h.1, fun τ => (h.2 τ).trans (hiff τ)⟩
  | timedOut =>
    obtain ⟨e', he', hnone⟩ := h
    exact ⟨e', hpath he', hnone⟩
  | diverged => exact h

namespace Executor

/-- Replay what a state did. A fork that is not internal has to leave one state. -/
def replay (getBool : Bool) (ex : Executor) (state : ExecutionState) :
    List PathEvent → ReplayResult
  | [] => .finished ex state
  | .fork condition isInternal direction :: path =>
      match ex.fork state condition isInternal false getBool with
      | none => .diverged
      | some r =>
          match r.side direction, r.side !direction with
          | some state, none => r.executor.replay getBool state path
          | some state, some _ =>
              if isInternal then r.executor.replay getBool state path else .diverged
          | none, none => .timedOut
          | none, some _ => .diverged
  | .addConstraint condition :: path =>
      match ex.addConstraint state condition with
      | none => .diverged
      | some (ex, state) => ex.replay getBool state path

/-- The executor replays the bits from a position on: it has no seeds and no limits. -/
structure Replays (solver : TimingSolver) (bits : List Bool) (position : ℕ) (ex : Executor) :
    Prop where
  solver : ex.solver = solver
  replayPath : ex.replayPath = some bits
  replayPosition : ex.replayPosition = position
  seedMap : ex.seedMap = fun _ => none
  replayOut : ex.replayOut = false
  atMemoryLimit : ex.atMemoryLimit = false
  inhibitForking : ex.inhibitForking = false
  MaxForks : ex.MaxForks = BitVec.allOnes 32
  MaxDepth : ex.MaxDepth = 0

section Replay

variable {ex : Executor} {state : ExecutionState} {condition : Expr} {solver : TimingSolver}
  {bits : List Bool} {position : ℕ} {getBool : Bool}

theorem addConstraint_forkDisabled {ex' : Executor} {state' : ExecutionState}
    (h : ex.addConstraint state condition = some (ex', state')) :
    state'.forkDisabled = state.forkDisabled := by
  unfold addConstraint at h
  split at h
  next =>
    split at h
    next =>
      obtain ⟨-, rfl⟩ := Prod.mk.inj (Option.some.inj h)
      rfl
    next => exact absurd h (by simp)
  next =>
    simp only [bind, Option.bind_eq_some_iff] at h
    obtain ⟨seeds, -, constraints, -, heq⟩ := h
    obtain ⟨-, rfl⟩ := Prod.mk.inj (Option.some.inj heq)
    rfl

/-- Without seeds and limits both halves of a split are returned. -/
theorem splitState_unlimited (hcs : ∀ c ∈ state.constraints, c.IsBool) (he : condition.IsBool)
    (hseeds : ex.seedMap = fun _ => none) (hdepth : ex.MaxDepth = 0)
    (htrue : ∃ σ, Satisfies σ state.constraints ∧ condition.Holds σ)
    (hfalse : ∃ σ, Satisfies σ state.constraints ∧ ¬condition.Holds σ) :
    ∃ t f, ex.splitState state condition getBool = some ⟨ex.addState, some t, some f⟩
      ∧ t.forkDisabled = state.forkDisabled ∧ f.forkDisabled = state.forkDisabled := by
  unfold splitState
  dsimp only
  generalize hT : (if (ex.addState.RandomizeFork && getBool) = true then _ else _ :
    ExecutionState) = T
  generalize hF : (if (ex.addState.RandomizeFork && getBool) = true then _ else _ :
    ExecutionState) = F
  have hstates : (T.constraints = state.constraints ∧ F.constraints = state.constraints)
      ∧ T.forkDisabled = state.forkDisabled ∧ F.forkDisabled = state.forkDisabled := by
    rw [← hT, ← hF]
    cases ex.addState.RandomizeFork && getBool with
    | true => exact ⟨⟨rfl, rfl⟩, rfl, rfl⟩
    | false => exact ⟨⟨rfl, rfl⟩, rfl, rfl⟩
  obtain ⟨⟨hTc, hFc⟩, hTd, hFd⟩ := hstates
  have hnone : ∀ id, ex.addState.seedMap id = none := fun id => congrFun hseeds id
  have hdist : ex.addState.distributeSeeds { state with depth := state.depth + 1 } condition T F
      = some ex.addState := by
    rw [distributeSeeds, hnone]
  have hfalse' : ∃ σ, Satisfies σ F.constraints ∧ condition.createIsZero.Holds σ := by
    obtain ⟨σ, hσ, hc⟩ := hfalse
    exact ⟨σ, hFc ▸ hσ, (he.holds_createIsZero σ).mpr hc⟩
  obtain ⟨t, ht⟩ :=
    @addConstraint_returns ex.addState T condition (hTc ▸ hcs) he (hnone _) (hTc ▸ htrue)
  obtain ⟨f, hf⟩ :=
    @addConstraint_returns ex.addState F _ (hFc ▸ hcs) he.createIsZero (hnone _) hfalse'
  refine ⟨t, f, ?_, (addConstraint_forkDisabled ht).trans hTd,
    (addConstraint_forkDisabled hf).trans hFd⟩
  rw [hdist]
  simp only [bind, Option.bind_some, ht, hf]
  exact if_neg fun h => h.1 hdepth

/-- A fork of the replay has come to the recorded side: the replay is where it should be, and
the state has what it had and the side of the condition. -/
structure Took (solver : TimingSolver) (bits : List Bool) (position : ℕ) (condition : Expr)
    (direction : Bool) (state : ExecutionState) (ex' : Executor) (state' : ExecutionState) :
    Prop where
  replays : ex'.Replays solver bits position
  forkDisabled : state'.forkDisabled = false
  isBool : ∀ c ∈ state'.constraints, c.IsBool
  satisfies_iff : ∀ τ, Satisfies τ state'.constraints
    ↔ Satisfies τ state.constraints ∧ (condition.Holds τ ↔ direction = true)

theorem fork_replays (h : ex.Replays solver bits position) (isInternal : Bool) :
    ex.fork state condition isInternal false getBool
      = ex.forkEvaluated state condition isInternal getBool := by
  have hnone : ex.seedMap state.id = none := congrFun h.seedMap _
  simp [fork, forkStatic, hnone]

theorem decideBranch_replays (h : ex.Replays solver bits position) (isInternal : Bool)
    (res : Validity) : ex.decideBranch state condition isInternal getBool res
      = ex.decideByReplay state condition isInternal getBool res := by
  rw [decideBranch, h.seedMap]

/-- Adding a side of the condition that is possible. -/
theorem takeBranch_replays (h : ex.Replays solver bits position)
    (hcs : ∀ c ∈ state.constraints, c.IsBool) (he : condition.IsBool)
    (hforks : state.forkDisabled = false) {σ : Env} (hσ : Satisfies σ state.constraints)
    {direction : Bool} (hdir : condition.Holds σ ↔ direction = true) :
    ∃ state', ex.takeBranch state condition direction = some (ex, state', Validity.ofBool direction)
      ∧ Took solver bits position condition direction state ex state' := by
  have hside : (branchCondition condition direction).Holds σ :=
    (branchCondition_holds he direction σ).mpr hdir
  obtain ⟨state', hadd⟩ := addConstraint_returns hcs (branchCondition_isBool he direction)
    (congrFun h.seedMap state.id) ⟨σ, hσ, hside⟩
  obtain ⟨hadds, -⟩ := addConstraint_adds hcs (branchCondition_isBool he direction) hadd
  refine ⟨state', ?_, h, (addConstraint_forkDisabled hadd).trans hforks, hadds.isBool,
    fun τ => ?_⟩
  · rw [takeBranch, hadd]
    rfl
  · rw [hadds.satisfies_iff, branchCondition_holds he]

/-- A decided condition leaves the state as it is, on the side that an assignment of it is
on. -/
theorem took_decided (hcorrect : solver.solver.Correct) (hcs : ∀ c ∈ state.constraints, c.IsBool)
    (he : condition.IsBool) (hforks : state.forkDisabled = false) {σ : Env}
    (hσ : Satisfies σ state.constraints) {direction branch : Bool}
    (hdir : condition.Holds σ ↔ direction = true)
    (hres : solver.evaluate state.constraints condition = some (Validity.ofBool branch))
    (h : ex.Replays solver bits position) :
    branch = direction ∧ Took solver bits position condition direction state ex state := by
  have hvalid := TimingSolver.evaluate_sound hcorrect ⟨σ, hσ⟩ hcs he hres
  have hside : ∀ τ, Satisfies τ state.constraints → (condition.Holds τ ↔ branch = true) := by
    intro τ hτ
    cases branch with
    | true => exact iff_of_true (hvalid τ hτ) rfl
    | false => exact iff_of_false (hvalid τ hτ) (by simp)
  have hbranch : branch = direction :=
    Bool.eq_iff_iff.mpr ((hside σ hσ).symm.trans hdir)
  subst hbranch
  exact ⟨rfl, h, hforks, hcs, fun τ => (and_iff_left_of_imp (hside τ)).symm⟩

/-- A decided fork returns the state on its side. -/
theorem forkResult_side (ex : Executor) (state : ExecutionState) (condition : Expr)
    (direction : Bool) :
    ∃ r, ex.forkResult state condition getBool (Validity.ofBool direction) = some r
      ∧ r.executor = ex ∧ r.side direction = some state ∧ r.side (!direction) = none := by
  cases direction with
  | true => exact ⟨_, rfl, rfl, rfl, rfl⟩
  | false => exact ⟨_, rfl, rfl, rfl, rfl⟩

/-- A bit was taken from the path. -/
def nextPosition (ex : Executor) : Executor := { ex with replayPosition := ex.replayPosition + 1 }

theorem decideByReplay_bit {direction : Bool} (hpath : ex.replayPath = some bits)
    (hbit : bits[ex.replayPosition]? = some direction) (res : Validity) :
    ex.decideByReplay state condition false getBool res = match res with
      | .True => if direction then some (ex.nextPosition, state, .True) else none
      | .False => if direction then none else some (ex.nextPosition, state, .False)
      | .Unknown => ex.nextPosition.takeBranch state condition direction := by
  unfold decideByReplay
  split
  next replayPath hpath' _ =>
    obtain rfl := Option.some.inj (hpath.symm.trans hpath')
    rw [hbit]
    cases res with
    | True => rfl
    | False => rfl
    | Unknown => rfl
  next hnot => exact absurd hpath fun h => hnot _ h rfl

/-- A fork that is not internal takes the next bit and leaves the state on its side. -/
theorem fork_takes_bit (hcorrect : solver.solver.Correct) (h : ex.Replays solver bits position)
    (hcs : ∀ c ∈ state.constraints, c.IsBool) (he : condition.IsBool)
    (hforks : state.forkDisabled = false) {σ : Env} (hσ : Satisfies σ state.constraints)
    {direction : Bool} (hdir : condition.Holds σ ↔ direction = true)
    (hbit : bits[position]? = some direction) :
    solver.evaluate state.constraints condition = none
        ∧ ex.fork state condition false false getBool = some ⟨ex.terminateState state, none, none⟩
      ∨ ∃ r state', ex.fork state condition false false getBool = some r
        ∧ r.side direction = some state' ∧ r.side (!direction) = none
        ∧ Took solver bits (position + 1) condition direction state r.executor state' := by
  rw [fork_replays h, forkEvaluated, h.solver]
  cases hres : solver.evaluate state.constraints condition with
  | none => exact .inl ⟨rfl, rfl⟩
  | some res =>
    right
    have hnext : ex.nextPosition.Replays solver bits (position + 1) :=
      ⟨h.solver, h.replayPath, congrArg (· + 1) h.replayPosition, h.seedMap, h.replayOut,
        h.atMemoryLimit, h.inhibitForking, h.MaxForks, h.MaxDepth⟩
    have hbit' : bits[ex.replayPosition]? = some direction := h.replayPosition ▸ hbit
    obtain ⟨state', htake, htook⟩ : ∃ state',
        ex.decideBranch state condition false getBool res
            = some (ex.nextPosition, state', Validity.ofBool direction)
          ∧ Took solver bits (position + 1) condition direction state ex.nextPosition state' := by
      rw [decideBranch_replays h, decideByReplay_bit h.replayPath hbit']
      cases res with
      | True =>
        obtain ⟨rfl, htook⟩ :=
          @took_decided _ _ _ _ _ _ hcorrect hcs he hforks σ hσ direction true hdir hres hnext
        exact ⟨state, rfl, htook⟩
      | False =>
        obtain ⟨rfl, htook⟩ :=
          @took_decided _ _ _ _ _ _ hcorrect hcs he hforks σ hσ direction false hdir hres hnext
        exact ⟨state, rfl, htook⟩
      | Unknown => exact takeBranch_replays hnext hcs he hforks hσ hdir
    obtain ⟨r, hr, hex, hside, hother⟩ :=
      @forkResult_side getBool ex.nextPosition state' condition direction
    simp only [htake, bind, Option.bind_some]
    exact ⟨r, state', hr, hside, hother, hex ▸ htook⟩

/-- An internal fork takes no bit, and one of the states it returns is on the side of an
assignment. -/
theorem fork_takes_side (hcorrect : solver.solver.Correct) (h : ex.Replays solver bits position)
    (hcs : ∀ c ∈ state.constraints, c.IsBool) (he : condition.IsBool)
    (hforks : state.forkDisabled = false) {σ : Env} (hσ : Satisfies σ state.constraints)
    {direction : Bool} (hdir : condition.Holds σ ↔ direction = true) :
    solver.evaluate state.constraints condition = none
        ∧ ex.fork state condition true false getBool = some ⟨ex.terminateState state, none, none⟩
      ∨ ∃ r state', ex.fork state condition true false getBool = some r
        ∧ r.side direction = some state'
        ∧ Took solver bits position condition direction state r.executor state' := by
  rw [fork_replays h, forkEvaluated, h.solver]
  cases hres : solver.evaluate state.constraints condition with
  | none => exact .inl ⟨rfl, rfl⟩
  | some res =>
    right
    have hinhibits : ex.inhibits state = false := by
      rw [inhibits, h.atMemoryLimit, hforks, h.inhibitForking, h.MaxForks]
      simp
    have hkeep : ex.decideBranch state condition true getBool res = some (ex, state, res) := by
      rw [decideBranch_replays h, decideByReplay, h.replayOut, hinhibits]
      · simp
      · exact fun _ _ hfalse => absurd hfalse (by simp)
    simp only [hkeep, bind, Option.bind_some]
    cases res with
    | True =>
      obtain ⟨rfl, htook⟩ :=
        @took_decided _ _ _ _ _ _ hcorrect hcs he hforks σ hσ direction true hdir hres h
      exact ⟨_, state, rfl, rfl, htook⟩
    | False =>
      obtain ⟨rfl, htook⟩ :=
        @took_decided _ _ _ _ _ _ hcorrect hcs he hforks σ hσ direction false hdir hres h
      exact ⟨_, state, rfl, rfl, htook⟩
    | Unknown =>
      obtain ⟨htrue, hfalse⟩ := TimingSolver.evaluate_sound hcorrect ⟨σ, hσ⟩ hcs he hres
      obtain ⟨t, f, hsplit, ht, hf⟩ :=
        @splitState_unlimited _ _ _ getBool hcs he h.seedMap h.MaxDepth htrue hfalse
      have hreplays : ex.addState.Replays solver bits position :=
        ⟨h.solver, h.replayPath, h.replayPosition, h.seedMap, h.replayOut, h.atMemoryLimit,
          h.inhibitForking, h.MaxForks, h.MaxDepth⟩
      obtain ⟨-, -, ⟨hnone, -⟩ | ⟨t', f', ht', hf', -, -, htb, hfb, hti, hfi⟩⟩ :=
        splitState_cases hcs he hsplit
      · exact absurd hnone (by simp)
      · obtain rfl := Option.some.inj ht'
        obtain rfl := Option.some.inj hf'
        refine ⟨_, if direction then t else f, hsplit, ?_, hreplays, ?_, ?_, fun τ => ?_⟩
        · cases direction with
          | true => rfl
          | false => rfl
        · cases direction with
          | true => exact ht.trans hforks
          | false => exact hf.trans hforks
        · cases direction with
          | true => exact htb
          | false => exact hfb
        · cases direction with
          | true => exact (hti τ).trans (and_congr_right fun _ => (iff_true_right rfl).symm)
          | false => exact (hfi τ).trans (and_congr_right fun _ => (iff_false_right (by decide)).symm)

/-- A replay along an assignment takes the directions of the path, one bit for each fork that
is not internal, and adds to the state what the path says. -/
theorem replay_agrees (hcorrect : solver.solver.Correct) (before rest : List Bool)
    (path : List PathEvent)
    (h : ex.Replays solver (before ++ directions path ++ rest) before.length)
    (hpath : ∀ e ∈ path, e.condition.IsBool) (hcs : ∀ c ∈ state.constraints, c.IsBool)
    (hforks : state.forkDisabled = false) {σ : Env} (hσ : Satisfies σ state.constraints)
    (hfollows : Follows σ path) :
    (ex.replay getBool state path).Agrees solver path (before ++ directions path).length
      fun τ => Satisfies τ state.constraints ∧ Follows τ path := by
  induction path generalizing ex state before with
  | nil =>
    refine ⟨h.replayPosition.trans ?_, fun τ => (and_iff_left (List.forall_mem_nil _)).symm⟩
    rw [directions, List.filterMap_nil, List.append_nil]
  | cons e path ih =>
    obtain ⟨he, hpath⟩ := List.forall_mem_cons.mp hpath
    obtain ⟨hholds, hfollows⟩ := List.forall_mem_cons.mp hfollows
    -- The rest of the path, from where its first event has led.
    have hrest : ∀ (ex' : Executor) (state' : ExecutionState) (before' : List Bool),
        before' ++ directions path = before ++ directions (e :: path) →
        ex'.Replays solver (before ++ directions (e :: path) ++ rest) before'.length →
        state'.forkDisabled = false → (∀ c ∈ state'.constraints, c.IsBool) →
        (∀ τ, Satisfies τ state'.constraints ↔ Satisfies τ state.constraints ∧ e.Holds τ) →
        (ex'.replay getBool state' path).Agrees solver (e :: path)
          (before ++ directions (e :: path)).length
          fun τ => Satisfies τ state.constraints ∧ Follows τ (e :: path) := by
      intro ex' state' before' hbits h' hforks' hcs' hiff
      rw [← hbits] at h' ⊢
      have hagrees := ih before' h' hpath hcs' hforks' ((hiff σ).mpr ⟨hσ, hholds⟩) hfollows
      refine hagrees.mono (List.subset_cons_self e path) fun τ => ?_
      rw [hiff, follows_cons, and_assoc]
    cases e with
    | addConstraint condition =>
      change condition.IsBool at he
      obtain ⟨state', hadd⟩ :=
        addConstraint_returns hcs he (congrFun h.seedMap state.id) ⟨σ, hσ, hholds⟩
      obtain ⟨hadds, -⟩ := addConstraint_adds hcs he hadd
      rw [replay, hadd]
      exact hrest ex state' before rfl h ((addConstraint_forkDisabled hadd).trans hforks)
        hadds.isBool hadds.satisfies_iff
    | fork condition isInternal direction =>
      change condition.IsBool at he
      cases isInternal with
      | true =>
        have hfork := @fork_takes_side ex state condition solver _ before.length getBool hcorrect h
          hcs he hforks σ hσ direction hholds
        rw [replay]
        rcases hfork with ⟨hnone, hfork⟩ | ⟨r, state', hfork, hside, htook⟩
        · rw [hfork]
          cases direction with
          | true => exact ⟨_, List.mem_cons_self, _, hnone⟩
          | false => exact ⟨_, List.mem_cons_self, _, hnone⟩
        · rw [hfork]
          dsimp only
          rw [hside]
          have hgoal := hrest r.executor state' before rfl htook.replays htook.forkDisabled
            htook.isBool htook.satisfies_iff
          cases r.side !direction with
          | none => exact hgoal
          | some other => exact hgoal
      | false =>
        have hbits : before ++ directions (.fork condition false direction :: path)
            = before ++ [direction] ++ directions path := by
          rw [List.append_assoc]
          rfl
        have hbit : (before ++ directions (.fork condition false direction :: path)
            ++ rest)[before.length]? = some direction := by
          rw [hbits]
          simp
        have hfork := @fork_takes_bit ex state condition solver _ before.length getBool hcorrect h
          hcs he hforks σ hσ direction hholds hbit
        rw [replay]
        rcases hfork with ⟨hnone, hfork⟩ | ⟨r, state', hfork, hside, hother, htook⟩
        · rw [hfork]
          cases direction with
          | true => exact ⟨_, List.mem_cons_self, _, hnone⟩
          | false => exact ⟨_, List.mem_cons_self, _, hnone⟩
        · rw [hfork]
          dsimp only
          rw [hside, hother]
          refine hrest r.executor state' (before ++ [direction]) hbits.symm ?_ htook.forkDisabled
            htook.isBool htook.satisfies_iff
          rw [List.length_append]
          exact htook.replays

end Replay

end Executor

namespace PathRun

/-! ## Recording and replaying -/

/-- Path files agree with replays. In every run in which no fork that is not internal is in
single-path mode or writes to a stream that another state has too, the stream of every live
state reads back as the directions of its forks that are not internal. A replay with these
bits goes the same way, as far as the solver answers, and comes to the constraints of the
state. -/
theorem readStream_replays {ex : Executor} {state : ExecutionState} {buffer : ℕ → Byte}
    (hcorrect : ex.solver.solver.Correct) (hwidths : Executor.ValueWidths ex.solver.solver)
    (hcs : ∀ c ∈ state.constraints, c.IsBool) (hid : state.id ≤ ex.stateID)
    (hforks : state.forkDisabled = false) {s : PathRun}
    (h : Reaches step (fun s c => s.Valid c ∧ s.Records c) (init ex state buffer) s) {id : ℕ}
    {live : ExecutionState} (hlive : s.states id = some live) :
    (s.streams.pathWriter.readStream (s.streams.pathOS id) []).map Prod.fst
        = some ((directions (s.path id)).map digit)
      ∧ ∀ (ex' : Executor) (rest : List Bool) (getBool : Bool),
          ex'.Replays ex.solver (directions (s.path id) ++ rest) 0 →
          (∃ σ, Satisfies σ live.constraints) →
          (ex'.replay getBool state (s.path id)).Agrees ex.solver (s.path id)
            (directions (s.path id)).length fun τ => Satisfies τ live.constraints := by
  obtain ⟨t, ht⟩ := reaches_recorded hcorrect hwidths hcs hid h
  have hstate := ht.live id live hlive
  refine ⟨?_, fun ex' rest getBool hreplays hsat => ?_⟩
  · rw [ht.denotes.readStream hstate.opened, hstate.contents]
    rfl
  · obtain ⟨σ, hσ⟩ := hsat
    obtain ⟨hstart, hfollows⟩ := (hstate.satisfies_iff σ).mp hσ
    have hagrees := @Executor.replay_agrees ex' state ex.solver getBool hcorrect [] rest (s.path id)
      hreplays hstate.pathIsBool hcs hforks σ hstart hfollows
    exact hagrees.mono (List.Subset.refl _) fun τ => (hstate.satisfies_iff τ).symm

/-- The initial state is split at a test of the first byte, which writes to both streams. -/
theorem readStream_replays_firstByte :
    ∃ s, step (init (Executor.plainExecutor CachingSolver.firstByteSolver) Executor.initialState
          fun _ => 0) (.fork 0 CachingSolver.firstByteIsZero.expr false false false) = some ((), s)
      ∧ ∀ id live, s.states id = some live →
        (s.streams.pathWriter.readStream (s.streams.pathOS id) []).map Prod.fst
            = some ((directions (s.path id)).map digit)
          ∧ ∀ (ex' : Executor) (rest : List Bool) (getBool : Bool),
              ex'.Replays ⟨CachingSolver.firstByteSolver, false⟩
                (directions (s.path id) ++ rest) 0 →
              (∃ σ, Satisfies σ live.constraints) →
              (ex'.replay getBool Executor.initialState (s.path id)).Agrees
                ⟨CachingSolver.firstByteSolver, false⟩ (s.path id) (directions (s.path id)).length
                fun τ => Satisfies τ live.constraints := by
  have he : CachingSolver.firstByteIsZero.expr.IsBool := CachingSolver.firstByteIsZero_ok.isBool
  have hrun := Executor.runs_initialState CachingSolver.firstByteSolver
  obtain ⟨r, hr⟩ := @Executor.fork_returns
    (Executor.plainExecutor CachingSolver.firstByteSolver) Executor.initialState _
    CachingSolver.firstByteSolver_correct hrun ⟨fun _ _ => 0, by decide⟩ he false false rfl rfl rfl
    rfl rfl
  rw [Executor.fork_eq, Option.bind_eq_some_iff] at hr
  obtain ⟨outcome, houtcome, hresult⟩ := hr
  have hstep : ∃ s, step (init (Executor.plainExecutor CachingSolver.firstByteSolver)
      Executor.initialState fun _ => 0) (.fork 0 CachingSolver.firstByteIsZero.expr false false false)
        = some ((), s) := by
    have hstates : (init (Executor.plainExecutor CachingSolver.firstByteSolver)
        Executor.initialState fun _ => 0).states 0 = some Executor.initialState := rfl
    have hexecutor : (init (Executor.plainExecutor CachingSolver.firstByteSolver)
        Executor.initialState fun _ => 0).executor
          = Executor.plainExecutor CachingSolver.firstByteSolver := rfl
    simp only [step, fork, hstates, hexecutor, bind, Option.bind_some, houtcome, hresult,
      Option.map_some, Option.some.injEq, Prod.mk.injEq, true_and, exists_eq']
  obtain ⟨s, hstep⟩ := hstep
  refine ⟨s, hstep, fun id live hlive => ?_⟩
  have hvalid : (init (Executor.plainExecutor CachingSolver.firstByteSolver)
      Executor.initialState fun _ => 0).Valid
        (.fork 0 CachingSolver.firstByteIsZero.expr false false false) :=
    ⟨he, show (2 : BitVec 32) < forkBit by decide⟩
  refine readStream_replays CachingSolver.firstByteSolver_correct ?_ hrun.isBool hrun.id rfl
    (.step .init ⟨hvalid, fun _ => ⟨?_, ?_⟩⟩ hstep) hlive
  · intro q value _ h
    simp [Executor.plainExecutor, CachingSolver.firstByteSolver] at h
  · exact fun hsingle => absurd hsingle.1 (by simp [init, Executor.plainExecutor])
  · intro j hj _
    by_contra hne
    have hnone : Function.update (fun _ => none) 0 (some Executor.initialState) j = none :=
      Function.update_of_ne hne _ _
    exact hj hnone

/-! ## Where the two part -/

/-- A seed that has a zero for the first byte. -/
def zeroSeed : SeedInfo := ⟨[(.symbolic 0 "x" 1, [0])]⟩

/-- Forking is disabled, and every state has the seed. -/
def singlePathExecutor : Executor :=
  { Executor.plainExecutor CachingSolver.firstByteSolver with
    enableFork := false
    seedMap := fun _ => some [zeroSeed] }

/-- The single-path mode takes a direction and does not write it. -/
theorem singlePath_unrecorded : ¬∀ (s : PathRun) (id : ℕ) (live : ExecutionState),
    Reaches step Valid (init singlePathExecutor Executor.initialState fun _ => 0) s →
    s.states id = some live →
    (s.streams.pathWriter.readStream (s.streams.pathOS id) []).map Prod.fst
      = some ((directions (s.path id)).map digit) := by
  have heval : zeroSeed.evaluate CachingSolver.firstByteIsZero.expr
      = .Constant (.ofBool true) := by decide
  have he : CachingSolver.firstByteIsZero.expr.IsBool := CachingSolver.firstByteIsZero_ok.isBool
  have hbranch : singlePathExecutor.seedBranch Executor.initialState
      CachingSolver.firstByteIsZero.expr zeroSeed = some true := by
    rw [Executor.seedBranch, heval]
    rfl
  have hseeds : singlePathExecutor.patchSeeds Executor.initialState
      CachingSolver.firstByteIsZero.expr = some (some [zeroSeed]) := by decide
  obtain ⟨constraints, hconstraints⟩ : ∃ constraints,
      ConstraintManager.addConstraint [] CachingSolver.firstByteIsZero.expr = some constraints := by
    have hrep := @ConstraintManager.addConstraint_represents [] (by simp) _ he
    cases hadd : ConstraintManager.addConstraint [] CachingSolver.firstByteIsZero.expr with
    | none =>
      rw [hadd] at hrep
      exact absurd ⟨by simp [Satisfies], by decide⟩ (hrep (fun _ _ => 0) trivial)
    | some r => exact ⟨r, rfl⟩
  have hadd : singlePathExecutor.addConstraint Executor.initialState
      CachingSolver.firstByteIsZero.expr
        = some ({ singlePathExecutor with
            seedMap := Function.update singlePathExecutor.seedMap 0 (some [zeroSeed]) },
          { Executor.initialState with constraints := constraints }) := by
    change (singlePathExecutor.patchSeeds Executor.initialState
      CachingSolver.firstByteIsZero.expr).bind (fun seeds =>
        (ConstraintManager.addConstraint [] CachingSolver.firstByteIsZero.expr).bind fun c =>
          some ({ singlePathExecutor with
            seedMap := Function.update singlePathExecutor.seedMap 0 seeds },
          { Executor.initialState with constraints := c })) = _
    rw [hseeds, Option.bind_some, hconstraints]
    rfl
  have houtcome : singlePathExecutor.forkOutcome Executor.initialState
      CachingSolver.firstByteIsZero.expr false false false
        = some (.singlePath { singlePathExecutor with
            seedMap := Function.update singlePathExecutor.seedMap 0 (some [zeroSeed]) }
          { Executor.initialState with constraints := constraints } .True) := by
    have hseed : singlePathExecutor.seedMap Executor.initialState.id
        = some [zeroSeed] := rfl
    rw [Executor.forkOutcome_of_singlePath rfl hseed, hbranch, Option.bind_some,
      Executor.takeBranch]
    change ((singlePathExecutor.addConstraint Executor.initialState
      CachingSolver.firstByteIsZero.expr).bind _).map _ = _
    rw [hadd]
    rfl
  intro hall
  have hstates : (init singlePathExecutor Executor.initialState fun _ => 0).states 0
      = some Executor.initialState := rfl
  have hstep : ∃ s, step (init singlePathExecutor Executor.initialState fun _ => 0)
        (.fork 0 CachingSolver.firstByteIsZero.expr false false false) = some ((), s)
      ∧ s.streams = (init singlePathExecutor Executor.initialState fun _ => 0).streams
      ∧ s.states 0 = some { Executor.initialState with constraints := constraints }
      ∧ directions (s.path 0) = [true] := by
    have hexecutor : (init singlePathExecutor Executor.initialState fun _ => 0).executor
        = singlePathExecutor := rfl
    simp only [step, fork, hstates, hexecutor, bind, Option.bind_some, houtcome,
      ForkOutcome.result, Executor.forkResult, Option.map_some, Option.some.injEq, Prod.mk.injEq,
      true_and, exists_eq_left']
    exact ⟨rfl, rfl, rfl⟩
  obtain ⟨s, hstep, hstreams, hstate, hdirections⟩ := hstep
  have hvalid : (init singlePathExecutor Executor.initialState fun _ => 0).Valid
      (.fork 0 CachingSolver.firstByteIsZero.expr false false false) :=
    ⟨he, show (2 : BitVec 32) < forkBit by decide⟩
  have hread := hall s 0 _ (.step .init hvalid hstep) hstate
  -- Nothing has been written since the stream was opened.
  obtain ⟨t, ht⟩ := @init_recorded singlePathExecutor Executor.initialState (fun _ => 0)
    (by simp [Executor.initialState]) le_rfl
  have hinit := ht.live 0 _ hstates
  rw [hstreams, hdirections, ht.denotes.readStream hinit.opened, hinit.contents] at hread
  exact absurd hread (by decide)

end PathRun

end Xklee
