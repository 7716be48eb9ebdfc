/-
Path files: what `Executor::fork` writes to the path streams of the states.

Every state has a stream, `pathOS`. A fork that is not internal appends "1" or "0" to it,
and where it splits the state the half on the false side gets a new stream, which starts
with what the old one holds. The model runs the executor together with the writer of the
streams, and keeps for every state the list of what it did, which the streams are compared
with. What instructions do between the calls, as far as `fork` can tell, may be anything.
-/
import Xklee.Core.ForkOutcome
import Xklee.Support.TreeStream

set_option autoImplicit false

namespace Xklee

/-! ## The history of a state -/

/-- What a state did: a fork and the side it is on, or a constraint that was added. -/
inductive PathEvent
  | fork (condition : Expr) (isInternal direction : Bool)
  | addConstraint (condition : Expr)
deriving DecidableEq

namespace PathEvent

def condition : PathEvent → Expr
  | .fork condition _ _ => condition
  | .addConstraint condition => condition

/-- The direction of a fork that is not internal. -/
def direction? : PathEvent → Option Bool
  | .fork _ false direction => some direction
  | _ => none

/-- The assignment takes the same direction. -/
def Holds (σ : Env) : PathEvent → Prop
  | .fork condition _ direction => condition.Holds σ ↔ direction = true
  | .addConstraint condition => condition.Holds σ

end PathEvent

/-- The directions of the forks that are not internal, in order. -/
def directions (path : List PathEvent) : List Bool := path.filterMap PathEvent.direction?

/-- The assignment goes along the path. -/
def Follows (σ : Env) (path : List PathEvent) : Prop := ∀ e ∈ path, e.Holds σ

/-! ## Streams -/

/-- "1" or "0". -/
def digit (bit : Bool) : Byte := if bit then 49 else 48

/-- The writer, and `pathOS` of each state. -/
structure PathStreams where
  pathWriter : TreeStreamWriter
  pathOS : ℕ → BitVec 32

namespace PathStreams

/-- `state.pathOS << "1"` or `state.pathOS << "0"` -/
def put (s : PathStreams) (state : ℕ) (bit : Bool) : PathStreams :=
  { s with pathWriter := s.pathWriter.write (s.pathOS state) [digit bit] }

/-- The copy constructor of states: the copy has the stream of the state. -/
def copy (s : PathStreams) (state new : ℕ) : PathStreams :=
  { s with pathOS := Function.update s.pathOS new (s.pathOS state) }

/-- `state->pathOS = pathWriter->open(os)` -/
def openFrom (s : PathStreams) (state : ℕ) (os : BitVec 32) : PathStreams where
  pathWriter := (s.pathWriter.openStream os).2
  pathOS := Function.update s.pathOS state (s.pathWriter.openStream os).1

/-- What `fork` writes from the solver's answer on. -/
def record (s : PathStreams) (isInternal swap : Bool) (current new : ℕ) : Validity → PathStreams
  | .True => if isInternal then s else s.put current true
  | .False => if isInternal then s else s.put current false
  | .Unknown =>
      let s := s.copy current new
      let (trueState, falseState) := if swap then (new, current) else (current, new)
      if isInternal then s
      else ((s.openFrom falseState (s.pathOS current)).put trueState true).put falseState false

end PathStreams

/-- What each way through `fork` writes. The single-path mode writes nothing. -/
def ForkOutcome.streams (isInternal getBool : Bool) (s : PathStreams) : ForkOutcome → PathStreams
  | .singlePath _ _ _ => s
  | .timedOut _ _ => s
  | .evaluated ex current _ res =>
      s.record isInternal (ex.RandomizeFork && getBool) current.id (ex.stateID + 1) res

/-! ## Runs -/

/-- The executor, its states, their streams, and what each of them did. -/
structure PathRun where
  executor : Executor
  states : ℕ → Option ExecutionState
  streams : PathStreams
  path : ℕ → List PathEvent

/-- A call on the executor. `execute` stands for the instructions in between, which may
change the switches, the seeds, and whether a state may fork. -/
inductive PathCall
  | fork (state : ℕ) (condition : Expr) (isInternal atStaticLimit getBool : Bool)
  | branch (state : ℕ) (conditions : List Expr) (picks : List (BitVec 32))
  | addConstraint (state : ℕ) (condition : Expr)
  | terminateState (state : ℕ)
  | execute (enableFork atMemoryLimit inhibitForking : Bool)
      (seedMap : ℕ → Option (List SeedInfo)) (forkDisabled : ℕ → Bool)

/-- An entry for a state that is returned. -/
def setReturned {α : Type} (m : ℕ → α) (returned : Option ExecutionState)
    (entry : ExecutionState → α) : ℕ → α :=
  match returned with
  | none => m
  | some state => Function.update m state.id (entry state)

namespace PathRun

/-- At the start: one state with a stream of its own. -/
def init (ex : Executor) (state : ExecutionState) (buffer : ℕ → Byte) : PathRun where
  executor := ex
  states := Function.update (fun _ => none) state.id (some state)
  streams := (⟨.new buffer, fun _ => 0⟩ : PathStreams).openFrom state.id 0
  path := fun _ => []

def fork (s : PathRun) (id : ℕ) (condition : Expr) (isInternal atStaticLimit getBool : Bool) :
    Option PathRun := do
  let current ← s.states id
  let outcome ← s.executor.forkOutcome current condition isInternal atStaticLimit getBool
  let r ← outcome.result getBool
  let path := fun direction => s.path id ++ [.fork condition isInternal direction]
  some
    { executor := r.executor
      states := setReturned (setReturned (Function.update s.states id none) r.trueState some)
        r.falseState some
      streams := outcome.streams isInternal getBool s.streams
      path := setReturned (setReturned s.path r.trueState fun _ => path true)
        r.falseState fun _ => path false }

def addConstraint (s : PathRun) (id : ℕ) (condition : Expr) : Option PathRun := do
  let state ← s.states id
  let (ex, state) ← s.executor.addConstraint state condition
  some { s with
    executor := ex
    states := Function.update s.states id (some state)
    path := Function.update s.path id (s.path id ++ [.addConstraint condition]) }

/-- `es->branch(++stateID)` -/
def addBranch (s : PathRun) (es : ℕ) : Option PathRun := do
  let state ← s.states es
  let new := s.executor.stateID + 1
  let state := { state with depth := state.depth + 1 }
  some
    { executor := { s.executor with
        forks := s.executor.forks + 1
        stateID := new
        addedStates := new :: s.executor.addedStates }
      states := Function.update (Function.update s.states es (some state)) new
        (some { state with id := new })
      streams := s.streams.copy es new
      path := Function.update s.path new (s.path es) }

/-- The loop of `branch` over the further conditions, with the states so far. -/
def branchLoop (s : PathRun) (result : List ℕ) : List (BitVec 32) → Option (List ℕ × PathRun)
  | [] => some (result, s)
  | pick :: picks =>
      result[pick.toNat % result.length]?.bind fun es =>
        (s.addBranch es).bind fun s' => s'.branchLoop (result ++ [s.executor.stateID + 1]) picks

/-- The loop of `branch` that adds its condition to each state. -/
def addConditions (s : PathRun) : List (ℕ × Expr) → Option PathRun
  | [] => some s
  | (state, condition) :: rest =>
      (s.addConstraint state condition).bind fun s => s.addConditions rest

/-- `Executor::branch`, where every condition gets a state. -/
def branch (s : PathRun) (state : ℕ) (conditions : List Expr) (picks : List (BitVec 32)) :
    Option PathRun :=
  (s.branchLoop [state] picks).bind fun (result, s) => s.addConditions (result.zip conditions)

def terminateState (s : PathRun) (id : ℕ) : Option PathRun := do
  let state ← s.states id
  some { s with
    executor := s.executor.terminateState state
    states := Function.update s.states id none }

def step (s : PathRun) : PathCall → Option (Unit × PathRun)
  | .fork id condition isInternal atStaticLimit getBool =>
      (s.fork id condition isInternal atStaticLimit getBool).map fun s => ((), s)
  | .branch id conditions picks => (s.branch id conditions picks).map fun s => ((), s)
  | .addConstraint id condition => (s.addConstraint id condition).map fun s => ((), s)
  | .terminateState id => (s.terminateState id).map fun s => ((), s)
  | .execute enableFork atMemoryLimit inhibitForking seedMap forkDisabled =>
      some ((), { s with
        executor := { s.executor with
          enableFork := enableFork
          atMemoryLimit := atMemoryLimit
          inhibitForking := inhibitForking
          seedMap := seedMap }
        states := fun id => (s.states id).map fun state =>
          { state with forkDisabled := forkDisabled id } })

end PathRun

/-! ## What is written -/

namespace PathStreams

open TreeStreamWriter

variable {s : PathStreams} {t : Streams}

theorem put_denotes (h : s.pathWriter.Denotes t) (id : ℕ)
    (hid : 0 < s.pathOS id ∧ s.pathOS id < s.pathWriter.ids) (bit : Bool) :
    (s.put id bit).pathWriter.Denotes ⟨t.ids, Function.update t.contents (s.pathOS id)
      (t.contents (s.pathOS id) ++ [digit bit])⟩ :=
  (step_denotes _ _ (.write (s.pathOS id) [digit bit]) h
    ⟨hid, .inl (show 1 < bufferSize by decide)⟩).2

theorem ids_put (s : PathStreams) (id : ℕ) (bit : Bool) :
    (s.put id bit).pathWriter.ids = s.pathWriter.ids := ids_write _ _ _

variable {os b : BitVec 32} {new current : ℕ}

theorem openFrom_denotes (h : s.pathWriter.Denotes t) (hos : os < s.pathWriter.ids)
    (hids : s.pathWriter.ids < forkBit) (id : ℕ) :
    (s.openFrom id os).pathWriter.Denotes
        ⟨s.pathWriter.ids + 1, Function.update t.contents s.pathWriter.ids (t.contents os)⟩
      ∧ (s.openFrom id os).pathOS = Function.update s.pathOS id s.pathWriter.ids
      ∧ (s.openFrom id os).pathWriter.ids = s.pathWriter.ids + 1 := by
  have hsame : t.ids = s.pathWriter.ids := by
    obtain ⟨log, hlog⟩ := h
    exact hlog.ids
  have hnew : (s.pathWriter.openStream os).1 = s.pathWriter.ids := ids_flushBuffer _
  have hstep := (step_denotes _ _ (.openStream os) h ⟨hos, hids⟩).2
  rw [Streams.step, hsame] at hstep
  refine ⟨hstep, ?_, ?_⟩
  · rw [openFrom, hnew]
  · change (s.pathWriter.flushBuffer).ids + 1 = _
    rw [ids_flushBuffer]

theorem lt_succ_of_lt_forkBit {a : BitVec 32} (h : a < b) (hb : b < forkBit) : a < b + 1 := by
  have hbound : b.toNat < 2 ^ 31 := hb
  rw [BitVec.lt_def] at h ⊢
  rw [BitVec.toNat_add]
  change a.toNat < (b.toNat + 1) % 2 ^ 32
  omega

theorem self_lt_succ (hb : b < forkBit) : b < b + 1 := by
  have hbound : b.toNat < 2 ^ 31 := hb
  rw [BitVec.lt_def, BitVec.toNat_add]
  change b.toNat < (b.toNat + 1) % 2 ^ 32
  omega

/-- A new stream with what an old one holds, and a write to each. -/
theorem split_contents (f : BitVec 32 → List Byte) {new : BitVec 32} (hne : os ≠ new)
    (x y : List Byte) :
    let opened := Function.update f new (f os)
    let written := Function.update opened os (opened os ++ x)
    let both := Function.update written new (written new ++ y)
    both os = f os ++ x ∧ both new = f os ++ y ∧ ∀ k, k ≠ os → k ≠ new → both k = f k := by
  intro opened written both
  have hopened : opened os = f os := Function.update_of_ne hne _ _
  have hwritten : written new = f os :=
    (Function.update_of_ne hne.symm _ _).trans (Function.update_self _ _ _)
  refine ⟨?_, ?_, fun k hk hk' => ?_⟩
  · rw [← hopened]
    exact (Function.update_of_ne hne _ _).trans (Function.update_self _ _ _)
  · rw [← hwritten]
    exact Function.update_self _ _ _
  · exact (Function.update_of_ne hk' _ _).trans ((Function.update_of_ne hk _ _).trans
      (Function.update_of_ne hk' _ _))

/-- The digit that is written at a fork, if it is not internal. -/
def bits (isInternal direction : Bool) : List Byte :=
  if isInternal then [] else [digit direction]

/-- A state is split: the half on either side has a stream with what the state's stream
held and its own digit. Other streams stay, and so does the stream of the state if the fork
is internal. -/
structure Splits (isInternal : Bool) (s s' : PathStreams) (t t' : Streams) (current : ℕ)
    (half : Bool → ℕ) : Prop where
  denotes : s'.pathWriter.Denotes t'
  ids : ∀ k, k < s.pathWriter.ids → k < s'.pathWriter.ids
  opened : ∀ direction,
    0 < s'.pathOS (half direction) ∧ s'.pathOS (half direction) < s'.pathWriter.ids
  contents : ∀ direction, t'.contents (s'.pathOS (half direction))
    = t.contents (s.pathOS current) ++ bits isInternal direction
  osOther : ∀ j, (∀ direction, j ≠ half direction) → s'.pathOS j = s.pathOS j
  contentsOther : ∀ k, k < s.pathWriter.ids → (isInternal = false → k ≠ s.pathOS current) →
    t'.contents k = t.contents k

/-- The ids of the halves, which `swap` exchanges. -/
def half (swap : Bool) (current new : ℕ) (direction : Bool) : ℕ :=
  if direction = swap then new else current

theorem half_ne {swap : Bool} (hne : new ≠ current) :
    half swap current new true ≠ half swap current new false := by
  cases swap with
  | true => exact hne
  | false => exact hne.symm

theorem half_cases (swap : Bool) (current new : ℕ) (j : ℕ) :
    (∃ direction, j = half swap current new direction) ↔ j = current ∨ j = new := by
  rw [Bool.exists_bool]
  cases swap with
  | true => exact Iff.rfl
  | false => exact or_comm

/-- The halves of a fork that is not internal. -/
theorem splits_of_open (h : s.pathWriter.Denotes t) {half : Bool → ℕ} (hne : half true ≠ half false)
    (hos : s.pathOS (half true) = s.pathOS current)
    (hcurrent : 0 < s.pathOS current ∧ s.pathOS current < s.pathWriter.ids)
    (hids : s.pathWriter.ids < forkBit) :
    ∃ t', s.Splits false (((s.openFrom (half false) (s.pathOS current)).put (half true) true).put
      (half false) false) t t' current half := by
  obtain ⟨hopen, hpathOS, hopenIds⟩ := openFrom_denotes h hcurrent.2 hids (half false)
  generalize s.openFrom (half false) (s.pathOS current) = opened at hopen hpathOS hopenIds ⊢
  have hosTrue : opened.pathOS (half true) = s.pathOS current := by
    rw [hpathOS, Function.update_of_ne hne, hos]
  have hosFalse : opened.pathOS (half false) = s.pathWriter.ids := by
    rw [hpathOS, Function.update_self]
  have hneStream : s.pathOS current ≠ s.pathWriter.ids := fun heq =>
    absurd hcurrent.2 (heq ▸ BitVec.lt_irrefl _)
  have hopenedTrue : 0 < opened.pathOS (half true)
      ∧ opened.pathOS (half true) < opened.pathWriter.ids := by
    rw [hosTrue, hopenIds]
    exact ⟨hcurrent.1, lt_succ_of_lt_forkBit hcurrent.2 hids⟩
  have hopenedFalse : 0 < opened.pathOS (half false)
      ∧ opened.pathOS (half false) < opened.pathWriter.ids := by
    rw [hosFalse, hopenIds]
    have hpos := (BitVec.lt_def.mp hcurrent.1).trans (BitVec.lt_def.mp hcurrent.2)
    exact ⟨BitVec.lt_def.mpr hpos, self_lt_succ hids⟩
  have hput := put_denotes hopen (half true) hopenedTrue true
  rw [hosTrue] at hput
  have hosFalse' : (opened.put (half true) true).pathOS (half false) = s.pathWriter.ids := hosFalse
  have hput' := put_denotes hput (half false) (by rw [ids_put]; exact hopenedFalse) false
  rw [hosFalse'] at hput'
  have hboth : ((opened.put (half true) true).put (half false) false).pathWriter.ids
      = opened.pathWriter.ids := by
    rw [ids_put, ids_put]
  obtain ⟨hold, hnew, hother⟩ :=
    split_contents t.contents hneStream [digit true] [digit false]
  refine ⟨_, hput', fun k hk => ?_, fun direction => ?_, fun direction => ?_, fun j hj => ?_,
    fun k hk hkne => ?_⟩
  · rw [hboth, hopenIds]
    exact lt_succ_of_lt_forkBit hk hids
  · rw [hboth]
    cases direction with
    | true => exact hopenedTrue
    | false => exact hopenedFalse
  · change _ = _ ++ [digit direction]
    cases direction with
    | true => exact (congrArg _ hosTrue).trans hold
    | false => exact (congrArg _ hosFalse).trans hnew
  · change opened.pathOS j = _
    rw [hpathOS, Function.update_of_ne (hj false)]
  · exact hother k (hkne rfl) fun heq => absurd hk (heq ▸ BitVec.lt_irrefl _)

theorem record_unknown (h : s.pathWriter.Denotes t) (hne : new ≠ current)
    (hcurrent : 0 < s.pathOS current ∧ s.pathOS current < s.pathWriter.ids)
    (hids : s.pathWriter.ids < forkBit) (isInternal swap : Bool) :
    ∃ t', s.Splits isInternal (s.record isInternal swap current new .Unknown) t t' current
      (half swap current new) := by
  have hnew : ∀ j, (∀ direction, j ≠ half swap current new direction) → j ≠ new := by
    intro j hj heq
    obtain ⟨direction, hdirection⟩ := (half_cases swap current new j).mpr (.inr heq)
    exact hj direction hdirection
  have hcopy : (s.copy current new).pathWriter.Denotes t := h
  have hos : ∀ direction, (s.copy current new).pathOS (half swap current new direction)
      = s.pathOS current := by
    intro direction
    rcases (half_cases swap current new _).mp ⟨direction, rfl⟩ with heq | heq
    · rw [heq]
      exact Function.update_of_ne hne.symm _ _
    · rw [heq]
      exact Function.update_self _ _ _
  have hosCurrent : (s.copy current new).pathOS current = s.pathOS current :=
    Function.update_of_ne hne.symm _ _
  cases isInternal with
  | true =>
    -- Both halves have the stream of the state.
    refine ⟨t, hcopy, fun _ hk => hk, fun direction => ?_, fun direction => ?_, fun j hj => ?_,
      fun _ _ _ => rfl⟩
    · change 0 < (s.copy current new).pathOS _ ∧ (s.copy current new).pathOS _ < _
      rw [hos]
      exact hcurrent
    · change t.contents ((s.copy current new).pathOS _) = _
      rw [hos]
      exact (List.append_nil _).symm
    · exact Function.update_of_ne (hnew j hj) _ _
  | false =>
    have hrecord : s.record false swap current new .Unknown
        = (((s.copy current new).openFrom (half swap current new false)
            ((s.copy current new).pathOS current)).put (half swap current new true) true).put
              (half swap current new false) false := by
      cases swap with
      | true => rfl
      | false => rfl
    obtain ⟨t', hsplits⟩ := splits_of_open hcopy (half_ne hne)
      ((hos true).trans hosCurrent.symm) (by rw [hosCurrent]; exact hcurrent) hids
    rw [hrecord]
    refine ⟨t', hsplits.denotes, hsplits.ids, hsplits.opened, fun direction => ?_, fun j hj => ?_,
      fun k hk hkne => ?_⟩
    · exact (hsplits.contents direction).trans (by rw [hosCurrent])
    · exact (hsplits.osOther j hj).trans (Function.update_of_ne (hnew j hj) _ _)
    · exact hsplits.contentsOther k hk fun heq => by
        rw [hosCurrent]
        exact hkne heq

end PathStreams

/-! ## The invariant -/

theorem follows_snoc {σ : Env} {e : PathEvent} {path : List PathEvent} :
    Follows σ (path ++ [e]) ↔ Follows σ path ∧ e.Holds σ := by
  rw [Follows, List.forall_mem_append]
  exact and_congr_right fun _ => List.forall_mem_singleton

theorem directions_snoc (path : List PathEvent) (e : PathEvent) :
    directions (path ++ [e]) = directions path ++ e.direction?.toList := by
  rw [directions, directions, List.filterMap_append]
  cases hdir : e.direction? with
  | none => simp [hdir]
  | some bit => simp [hdir]

namespace PathRun

/-- A live state is what its history says: its stream holds the directions, and its
constraints say that they were taken. -/
structure LiveState (S : Env → Prop) (s : PathRun) (t : Streams) (id : ℕ)
    (state : ExecutionState) : Prop where
  address : state.id = id
  le : id ≤ s.executor.stateID
  opened : 0 < s.streams.pathOS id ∧ s.streams.pathOS id < s.streams.pathWriter.ids
  contents : t.contents (s.streams.pathOS id) = (directions (s.path id)).map digit
  isBool : ∀ c ∈ state.constraints, c.IsBool
  pathIsBool : ∀ e ∈ s.path id, e.condition.IsBool
  satisfies_iff : ∀ σ, Satisfies σ state.constraints ↔ S σ ∧ Follows σ (s.path id)

/-- The writer holds the streams of the live states. -/
structure Recorded (solver : TimingSolver) (S : Env → Prop) (s : PathRun) (t : Streams) : Prop where
  solver : s.executor.solver = solver
  denotes : s.streams.pathWriter.Denotes t
  live : ∀ id state, s.states id = some state → s.LiveState S t id state

def StreamsMatch (solver : TimingSolver) (S : Env → Prop) (s : PathRun) : Prop :=
  ∃ t, s.Recorded solver S t

/-- No other live state has the stream of the state. -/
def OwnStream (s : PathRun) (id : ℕ) : Prop :=
  ∀ j, s.states j ≠ none → s.streams.pathOS j = s.streams.pathOS id → j = id

/-- States outside `changed` are as before. -/
structure Frame (changed : ℕ → Prop) (s s' : PathRun) (t t' : Streams) : Prop where
  stateID : s.executor.stateID ≤ s'.executor.stateID
  ids : ∀ k, k < s.streams.pathWriter.ids → k < s'.streams.pathWriter.ids
  states : ∀ j, ¬changed j → s'.states j = s.states j
  pathOS : ∀ j, ¬changed j → s'.streams.pathOS j = s.streams.pathOS j
  path : ∀ j, ¬changed j → s'.path j = s.path j
  contents : ∀ j, ¬changed j → s.states j ≠ none →
    t'.contents (s.streams.pathOS j) = t.contents (s.streams.pathOS j)

section Invariant

variable {solver : TimingSolver} {S : Env → Prop} {s s' : PathRun} {t t' : Streams}

theorem Recorded.states_succ (h : Recorded solver S s t) :
    s.states (s.executor.stateID + 1) = none := by
  cases hstate : s.states (s.executor.stateID + 1) with
  | none => rfl
  | some state => exact absurd (h.live _ state hstate).le (Nat.not_succ_le_self _)

variable {id id' : ℕ} {current state : ExecutionState} {e : PathEvent} {ex : Executor}

/-- A state with the stream, the history and the constraints of a state that was right. -/
theorem LiveState.copy (hlive : s.LiveState S t id current) (haddress : state.id = id')
    (hle : id' ≤ s'.executor.stateID) (hpath : s'.path id' = s.path id)
    (hos : s'.streams.pathOS id' = s.streams.pathOS id)
    (hids : ∀ k, k < s.streams.pathWriter.ids → k < s'.streams.pathWriter.ids)
    (hcontents : t'.contents (s.streams.pathOS id) = t.contents (s.streams.pathOS id))
    (hconstraints : state.constraints = current.constraints) : s'.LiveState S t' id' state := by
  refine ⟨haddress, hle, ?_, ?_, ?_, ?_, ?_⟩
  · rw [hos]
    exact ⟨hlive.opened.1, hids _ hlive.opened.2⟩
  · rw [hos, hcontents, hpath]
    exact hlive.contents
  · rw [hconstraints]
    exact hlive.isBool
  · rw [hpath]
    exact hlive.pathIsBool
  · rw [hpath, hconstraints]
    exact hlive.satisfies_iff

/-- The rule for a call: what it changes is right. -/
theorem Recorded.of_frame (h : Recorded solver S s t) (changed : ℕ → Prop)
    (hframe : Frame changed s s' t t') (hsolver : s'.executor.solver = solver)
    (hdenotes : s'.streams.pathWriter.Denotes t')
    (hlive : ∀ j state, changed j → s'.states j = some state → s'.LiveState S t' j state) :
    Recorded solver S s' t' := by
  refine ⟨hsolver, hdenotes, fun j state hstate => ?_⟩
  by_cases hj : changed j
  · exact hlive j state hj hstate
  · rw [hframe.states j hj] at hstate
    have hold := h.live j state hstate
    have hne : s.states j ≠ none := fun hnone => by simp [hnone] at hstate
    exact hold.copy hold.address (hold.le.trans hframe.stateID) (hframe.path j hj)
      (hframe.pathOS j hj) hframe.ids (hframe.contents j hj hne) rfl

/-- A state that goes on with an event, from a state that was right. -/
theorem LiveState.goesOn (hlive : s.LiveState S t id current) (he : e.condition.IsBool)
    (haddress : state.id = id') (hle : id' ≤ s'.executor.stateID)
    (hpath : s'.path id' = s.path id ++ [e])
    (hopened : 0 < s'.streams.pathOS id' ∧ s'.streams.pathOS id' < s'.streams.pathWriter.ids)
    (hcontents : t'.contents (s'.streams.pathOS id')
      = t.contents (s.streams.pathOS id) ++ e.direction?.toList.map digit)
    (hbool : ∀ c ∈ state.constraints, c.IsBool)
    (hiff : ∀ σ, Satisfies σ state.constraints ↔ Satisfies σ current.constraints ∧ e.Holds σ) :
    s'.LiveState S t' id' state := by
  refine ⟨haddress, hle, hopened, ?_, hbool, ?_, fun σ => ?_⟩
  · rw [hcontents, hpath, hlive.contents, directions_snoc, List.map_append]
  · rw [hpath]
    exact List.forall_mem_append.mpr ⟨hlive.pathIsBool, List.forall_mem_singleton.mpr he⟩
  · rw [hpath, hiff, hlive.satisfies_iff, follows_snoc, and_assoc]

/-- One state goes on with an event, and writes its direction to a stream of its own if it
has one. -/
theorem Recorded.extend (h : Recorded solver S s t) {state' : ExecutionState}
    (hstate : s.states id = some state) (hsame : s.executor.SameExecutor ex) (hid : state'.id = id)
    (hbool : ∀ c ∈ state'.constraints, c.IsBool) (he : e.condition.IsBool)
    (hiff : ∀ σ, Satisfies σ state'.constraints ↔ Satisfies σ state.constraints ∧ e.Holds σ)
    (hown : e.direction? ≠ none → s.OwnStream id) {streams : PathStreams}
    (hstreams : streams = match e.direction? with
      | none => s.streams
      | some bit => s.streams.put id bit) :
    ∃ t', Recorded solver S ⟨ex, Function.update s.states id (some state'), streams,
      Function.update s.path id (s.path id ++ [e])⟩ t' := by
  have hlive := h.live id state hstate
  obtain ⟨t', hdenotes, hids, hos, hcontents, hother⟩ : ∃ t' : Streams,
      streams.pathWriter.Denotes t' ∧ streams.pathWriter.ids = s.streams.pathWriter.ids
        ∧ streams.pathOS = s.streams.pathOS
        ∧ t'.contents (s.streams.pathOS id)
          = t.contents (s.streams.pathOS id) ++ e.direction?.toList.map digit
        ∧ ∀ k, (e.direction? ≠ none → k ≠ s.streams.pathOS id) → t'.contents k = t.contents k := by
    subst hstreams
    cases e.direction? with
    | none => exact ⟨t, h.denotes, rfl, rfl, (List.append_nil _).symm, fun _ _ => rfl⟩
    | some bit =>
      refine ⟨_, PathStreams.put_denotes h.denotes id hlive.opened bit, PathStreams.ids_put _ _ _,
        rfl, Function.update_self _ _ _, fun k hk => Function.update_of_ne (hk (by simp)) _ _⟩
  refine ⟨t', h.of_frame (fun j => j = id) ⟨hsame.stateID.ge, ?_, ?_, ?_, ?_, ?_⟩
    (hsame.solver.trans h.solver) hdenotes ?_⟩
  · exact fun k hk => hids.symm ▸ hk
  · exact fun j hj => Function.update_of_ne hj _ _
  · exact fun j hj => congrFun hos j
  · exact fun j hj => Function.update_of_ne hj _ _
  · exact fun j hj hjlive => hother _ fun hdir heq => hj (hown hdir j hjlive heq)
  · rintro j new rfl hnew
    obtain rfl : state' = new := by simpa using hnew
    refine hlive.goesOn he hid (hlive.le.trans hsame.stateID.ge) ?_ ?_ ?_ hbool hiff
    · exact Function.update_self _ _ _
    · change 0 < streams.pathOS j ∧ streams.pathOS j < streams.pathWriter.ids
      rw [hos, hids]
      exact hlive.opened
    · change t'.contents (streams.pathOS j) = _
      rw [hos]
      exact hcontents

/-- A state is gone. -/
theorem Recorded.remove (h : Recorded solver S s t) (hsame : s.executor.SameExecutor ex) :
    Recorded solver S ⟨ex, Function.update s.states id none, s.streams, s.path⟩ t := by
  refine h.of_frame (fun j => j = id) ⟨hsame.stateID.ge, fun _ hk => hk, ?_, fun _ _ => rfl,
    fun _ _ => rfl, fun _ _ _ => rfl⟩ (hsame.solver.trans h.solver) h.denotes ?_
  · exact fun j hj => Function.update_of_ne hj _ _
  · rintro j state rfl hstate
    simp at hstate

end Invariant

/-! ## Every call keeps the invariant -/

/-- Conditions are Bool, and there are stream ids left. -/
def Valid (s : PathRun) : PathCall → Prop
  | .fork _ condition _ _ _ => condition.IsBool ∧ s.streams.pathWriter.ids < forkBit
  | .branch _ conditions _ => ∀ c ∈ conditions, c.IsBool
  | .addConstraint _ condition => condition.IsBool
  | _ => True

/-- A fork that is not internal records what it does: it is not in single-path mode, and the
stream that it writes to is the state's own. -/
def Records (s : PathRun) : PathCall → Prop
  | .fork id _ isInternal _ _ =>
      isInternal = false → ¬s.executor.SinglePath id ∧ s.OwnStream id
  | _ => True

section Calls

variable {solver : TimingSolver} {S : Env → Prop} {s s' : PathRun} {t : Streams}

variable {id : ℕ} {condition : Expr} {current : ExecutionState} {ex : Executor}
  {isInternal getBool : Bool}

theorem addConstraint_recorded (h : Recorded solver S s t) (he : condition.IsBool)
    (hcall : s.addConstraint id condition = some s') :
    s'.StreamsMatch solver S := by
  simp only [addConstraint, bind, Option.bind_eq_some_iff] at hcall
  obtain ⟨state, hstate, ⟨ex, state'⟩, hadd, heq⟩ := hcall
  obtain rfl := Option.some.inj heq
  have hlive := h.live id state hstate
  obtain ⟨hsame, hid⟩ := Executor.addConstraint_same hadd
  obtain ⟨hadds, -⟩ := Executor.addConstraint_adds hlive.isBool he hadd
  exact h.extend (e := .addConstraint condition) hstate hsame (hid.trans hlive.address) hadds.isBool
    he hadds.satisfies_iff (fun hdir => absurd rfl hdir) rfl

theorem addConditions_recorded (conditions : List (ℕ × Expr)) (h : Recorded solver S s t)
    (he : ∀ c ∈ conditions, c.2.IsBool) (hcall : s.addConditions conditions = some s') :
    s'.StreamsMatch solver S := by
  induction conditions generalizing s t with
  | nil =>
    obtain rfl := Option.some.inj hcall
    exact ⟨t, h⟩
  | cons c conditions ih =>
    obtain ⟨hc, he⟩ := List.forall_mem_cons.mp he
    rw [addConditions, Option.bind_eq_some_iff] at hcall
    obtain ⟨s₁, hadd, hrest⟩ := hcall
    obtain ⟨t₁, h₁⟩ := addConstraint_recorded h hc hadd
    exact ih h₁ he hrest

/-- A copy of a state shares its stream with it. -/
theorem addBranch_recorded (h : Recorded solver S s t) {es : ℕ}
    (hcall : s.addBranch es = some s') : Recorded solver S s' t := by
  simp only [addBranch, bind, Option.bind_eq_some_iff] at hcall
  obtain ⟨state, hstate, heq⟩ := hcall
  obtain rfl := Option.some.inj heq
  have hlive := h.live es state hstate
  have hne : s.executor.stateID + 1 ≠ es := fun heq =>
    absurd hlive.le (heq ▸ Nat.not_succ_le_self _)
  refine h.of_frame (fun j => j = es ∨ j = s.executor.stateID + 1)
    ⟨Nat.le_succ _, fun _ hk => hk, fun j hj => ?_, fun j hj => ?_, fun j hj => ?_,
      fun _ _ _ => rfl⟩ h.solver h.denotes ?_
  · obtain ⟨hes, hnew⟩ := not_or.mp hj
    exact (Function.update_of_ne hnew _ _).trans (Function.update_of_ne hes _ _)
  · exact Function.update_of_ne (not_or.mp hj).2 _ _
  · exact Function.update_of_ne (not_or.mp hj).2 _ _
  · rintro j new (rfl | rfl) hnew
    · change Function.update _ (s.executor.stateID + 1) _ j = _ at hnew
      rw [Function.update_of_ne hne.symm, Function.update_self] at hnew
      obtain rfl := Option.some.inj hnew
      exact hlive.copy hlive.address (hlive.le.trans (Nat.le_succ _))
        (Function.update_of_ne hne.symm _ _) (Function.update_of_ne hne.symm _ _)
        (fun _ hk => hk) rfl rfl
    · change Function.update _ (s.executor.stateID + 1) _ (s.executor.stateID + 1) = _ at hnew
      rw [Function.update_self] at hnew
      obtain rfl := Option.some.inj hnew
      exact hlive.copy rfl le_rfl (Function.update_self _ _ _) (Function.update_self _ _ _)
        (fun _ hk => hk) rfl rfl

theorem branchLoop_recorded (picks : List (BitVec 32)) (result : List ℕ)
    (h : Recorded solver S s t) {result' : List ℕ}
    (hcall : s.branchLoop result picks = some (result', s')) : Recorded solver S s' t := by
  induction picks generalizing s result with
  | nil =>
    obtain ⟨-, rfl⟩ := Prod.mk.inj (Option.some.inj hcall)
    exact h
  | cons pick picks ih =>
    rw [branchLoop, Option.bind_eq_some_iff] at hcall
    obtain ⟨es, -, hcall⟩ := hcall
    rw [Option.bind_eq_some_iff] at hcall
    obtain ⟨s₁, hadd, hrest⟩ := hcall
    exact ih _ (addBranch_recorded h hadd) hrest

theorem branch_recorded (h : Recorded solver S s t) {conditions : List Expr}
    {picks : List (BitVec 32)} (he : ∀ c ∈ conditions, c.IsBool)
    (hcall : s.branch id conditions picks = some s') : s'.StreamsMatch solver S := by
  rw [branch, Option.bind_eq_some_iff] at hcall
  obtain ⟨⟨result, s₁⟩, hloop, hadd⟩ := hcall
  refine addConditions_recorded _ (branchLoop_recorded picks _ h hloop) ?_ hadd
  rintro ⟨j, c⟩ hc
  exact he c (List.of_mem_zip hc).2

/-- A fork that one state comes out of. -/
theorem single_recorded (h : Recorded solver S s t) {state' : ExecutionState} (direction : Bool)
    (he : condition.IsBool) (hcurrent : s.states id = some current)
    (hsame : s.executor.SameExecutor ex)
    (hreaches : Executor.Reaches condition current state' (Validity.ofBool direction))
    (hsound : ∀ σ, Satisfies σ state'.constraints → (condition.Holds σ ↔ direction = true))
    (hown : isInternal = false → s.OwnStream id) {streams : PathStreams}
    (hstreams : streams = if isInternal then s.streams else s.streams.put id direction) :
    ∃ t', Recorded solver S ⟨ex,
      Function.update (Function.update s.states id none) state'.id (some state'), streams,
      Function.update s.path state'.id
        (s.path id ++ [.fork condition isInternal direction])⟩ t' := by
  have hid : state'.id = id := hreaches.id.trans (h.live id current hcurrent).address
  have hside : ∀ σ, (condition.Holds σ ↔ direction = true) →
      (Satisfies σ state'.constraints ↔ Satisfies σ current.constraints) := by
    intro σ hdir
    refine hreaches.satisfies_iff σ ?_
    cases direction with
    | true => exact hdir.mpr rfl
    | false => exact fun hc => absurd (hdir.mp hc) (by simp)
  rw [hid, Function.update_idem]
  refine h.extend (e := .fork condition isInternal direction) hcurrent hsame hid hreaches.isBool he
    (fun σ => ?_) ?_ ?_
  · change _ ↔ _ ∧ (condition.Holds σ ↔ direction = true)
    constructor
    · intro hσ
      have hdir := hsound σ hσ
      exact ⟨(hside σ hdir).mp hσ, hdir⟩
    · rintro ⟨hσ, hdir⟩
      exact (hside σ hdir).mpr hσ
  · cases isInternal with
    | true => exact fun hdir => absurd rfl hdir
    | false => exact fun _ => hown rfl
  · rw [hstreams]
    cases isInternal with
    | true => rfl
    | false => rfl

/-- A fork that splits the state. -/
theorem split_recorded (h : Recorded solver S s t) {r : ForkResult} (he : condition.IsBool)
    (hcurrent : s.states id = some current) (hsame : s.executor.SameExecutor ex)
    (hids : s.streams.pathWriter.ids < forkBit) (hown : isInternal = false → s.OwnStream id)
    (hr : ex.splitState current condition getBool = some r) :
    ∃ t', Recorded solver S
      { executor := r.executor
        states := setReturned (setReturned (Function.update s.states id none) r.trueState some)
          r.falseState some
        streams := s.streams.record isInternal (ex.RandomizeFork && getBool) current.id
          (ex.stateID + 1) .Unknown
        path := setReturned (setReturned s.path r.trueState fun _ =>
            s.path id ++ [.fork condition isInternal true])
          r.falseState fun _ => s.path id ++ [.fork condition isInternal false] } t' := by
  have hlive := h.live id current hcurrent
  obtain ⟨hstateID, hsolver, hstates⟩ := Executor.splitState_cases hlive.isBool he hr
  have hsolver' : r.executor.solver = solver := hsolver.trans (hsame.solver.trans h.solver)
  rw [hlive.address] at hstates ⊢
  rw [hsame.stateID] at hstateID hstates ⊢
  have hnew : s.executor.stateID + 1 ≠ id := fun heq =>
    absurd hlive.le (heq ▸ Nat.not_succ_le_self _)
  have hfresh := h.states_succ
  generalize (ex.RandomizeFork && getBool) = swap at hstates ⊢
  obtain ⟨t', hsplits⟩ :=
    PathStreams.record_unknown h.denotes hnew hlive.opened hids isInternal swap
  refine ⟨t', ?_⟩
  generalize s.streams.record isInternal swap id (s.executor.stateID + 1) .Unknown = streams
    at hsplits ⊢
  have hhalf := PathStreams.half_cases swap id (s.executor.stateID + 1)
  have hframe : ∀ j, ¬(j = id ∨ j = s.executor.stateID + 1) →
      streams.pathOS j = s.streams.pathOS j ∧ (s.states j ≠ none →
        t'.contents (s.streams.pathOS j) = t.contents (s.streams.pathOS j)) := by
    intro j hj
    rw [← hhalf, not_exists] at hj
    refine ⟨hsplits.osOther j hj, fun hjlive => ?_⟩
    obtain ⟨state, hstate⟩ := Option.ne_none_iff_exists'.mp hjlive
    refine hsplits.contentsOther _ (h.live j state hstate).opened.2 fun hinternal heq => ?_
    obtain ⟨direction, hdirection⟩ := (hhalf j).mpr (.inl (hown hinternal j hjlive heq))
    exact hj direction hdirection
  rcases hstates with ⟨htn, hfn⟩ | ⟨T, F, hT, hF, hTid, hFid, hTbool, hFbool, hTiff, hFiff⟩
  · -- Both halves are too deep.
    rw [htn, hfn]
    refine h.of_frame (fun j => j = id ∨ j = s.executor.stateID + 1)
      ⟨(Nat.le_succ _).trans hstateID.ge, hsplits.ids, fun j hj => ?_, fun j hj => (hframe j hj).1,
        fun _ _ => rfl, fun j hj => (hframe j hj).2⟩ hsolver' hsplits.denotes ?_
    · exact Function.update_of_ne (fun heq => hj (.inl heq)) _ _
    · rintro j state (rfl | rfl) hstate
      · simp [setReturned] at hstate
      · simp [setReturned, Function.update_of_ne hnew, hfresh] at hstate
  · rw [hT, hF]
    have hTid' : T.id = PathStreams.half swap id (s.executor.stateID + 1) true := by
      rw [hTid]
      cases swap with
      | true => rfl
      | false => rfl
    have hFid' : F.id = PathStreams.half swap id (s.executor.stateID + 1) false := by
      rw [hFid]
      cases swap with
      | true => rfl
      | false => rfl
    have hTF : T.id ≠ F.id := by
      rw [hTid', hFid']
      exact PathStreams.half_ne hnew
    have hle : ∀ direction, PathStreams.half swap id (s.executor.stateID + 1) direction
        ≤ r.executor.stateID := by
      intro direction
      have hlele := hlive.le
      have hcases := (hhalf _).mp ⟨direction, rfl⟩
      omega
    have hchanged : ∀ j, j = id ∨ j = s.executor.stateID + 1 ↔ j = T.id ∨ j = F.id := by
      intro j
      rw [← hhalf, Bool.exists_bool, hTid', hFid', or_comm]
    have hbits : ∀ direction, PathStreams.bits isInternal direction
        = (PathEvent.fork condition isInternal direction).direction?.toList.map digit := by
      cases isInternal with
      | true => exact fun _ => rfl
      | false => exact fun _ => rfl
    refine h.of_frame (fun j => j = id ∨ j = s.executor.stateID + 1)
      ⟨(Nat.le_succ _).trans hstateID.ge, hsplits.ids, fun j hj => ?_, fun j hj => (hframe j hj).1,
        fun j hj => ?_, fun j hj => (hframe j hj).2⟩ hsolver' hsplits.denotes ?_
    · have hjid : j ≠ id := fun heq => hj (.inl heq)
      rw [hchanged, not_or] at hj
      exact (Function.update_of_ne hj.2 _ _).trans ((Function.update_of_ne hj.1 _ _).trans
        (Function.update_of_ne hjid _ _))
    · rw [hchanged, not_or] at hj
      exact (Function.update_of_ne hj.2 _ _).trans (Function.update_of_ne hj.1 _ _)
    · intro j state hj hstate
      rw [hchanged] at hj
      rcases hj with rfl | rfl
      · obtain rfl : T = state :=
          Option.some.inj (((Function.update_of_ne hTF _ _).trans
            (Function.update_self _ _ _)).symm.trans hstate)
        refine hlive.goesOn (e := .fork condition isInternal true) he rfl ?_ ?_ ?_ ?_ hTbool
          fun σ => ?_
        · exact hTid' ▸ hle true
        · exact (Function.update_of_ne hTF _ _).trans (Function.update_self _ _ _)
        · exact hTid' ▸ hsplits.opened true
        · exact hTid' ▸ hbits true ▸ hsplits.contents true
        · exact (hTiff σ).trans (and_congr_right fun _ => (iff_true_right rfl).symm)
      · obtain rfl : F = state := by simpa [setReturned] using hstate
        refine hlive.goesOn (e := .fork condition isInternal false) he rfl ?_ ?_ ?_ ?_ hFbool
          fun σ => ?_
        · exact hFid' ▸ hle false
        · exact Function.update_self _ _ _
        · exact hFid' ▸ hsplits.opened false
        · exact hFid' ▸ hbits false ▸ hsplits.contents false
        · exact (hFiff σ).trans (and_congr_right fun _ => (iff_false_right (by decide)).symm)

theorem fork_recorded (hcorrect : solver.solver.Correct)
    (hwidths : Executor.ValueWidths solver.solver) (h : Recorded solver S s t)
    {atStaticLimit : Bool} (hvalid : s.Valid (.fork id condition isInternal atStaticLimit getBool))
    (hrecords : s.Records (.fork id condition isInternal atStaticLimit getBool))
    (hcall : s.fork id condition isInternal atStaticLimit getBool = some s') :
    s'.StreamsMatch solver S := by
  simp only [fork, bind, Option.bind_eq_some_iff] at hcall
  obtain ⟨current, hcurrent, outcome, houtcome, r, hr, heq⟩ := hcall
  obtain rfl := Option.some.inj heq
  obtain ⟨he, hids⟩ := hvalid
  have hown : isInternal = false → s.OwnStream id := fun hinternal => (hrecords hinternal).2
  have hlive := h.live id current hcurrent
  have hkeeps := Executor.forkOutcome_keeps (h.solver ▸ hwidths) hlive.isBool he houtcome
  have hfork : s.executor.fork current condition isInternal atStaticLimit getBool = some r := by
    rw [Executor.fork_eq, houtcome]
    exact hr
  have hsound := Executor.fork_sound (h.solver ▸ hcorrect) (h.solver ▸ hwidths) hlive.isBool he hfork
  cases outcome with
  | timedOut ex' current' =>
    obtain rfl := Option.some.inj hr
    exact ⟨t, h.remove (hkeeps.1.trans (Executor.terminateState_same ex' current'))⟩
  | singlePath ex' current' res =>
    obtain ⟨hsame, hreaches, hres, hmode⟩ := hkeeps
    rw [hlive.address] at hmode
    have hinternal : isInternal = true := by
      by_contra hnot
      exact (hrecords (Bool.not_eq_true _ ▸ hnot)).1 hmode
    cases res with
    | Unknown => exact absurd rfl hres
    | True =>
      obtain rfl := Option.some.inj hr
      refine single_recorded h true he hcurrent hsame hreaches
        (fun σ hσ => iff_of_true (hsound.1 _ rfl σ hσ).2 rfl) hown ?_
      rw [if_pos hinternal]
      rfl
    | False =>
      obtain rfl := Option.some.inj hr
      refine single_recorded h false he hcurrent hsame hreaches
        (fun σ hσ => iff_of_false (hsound.2 _ rfl σ hσ).2 (by simp)) hown ?_
      rw [if_pos hinternal]
      rfl
  | evaluated ex' current' condition' res =>
    obtain ⟨hsame, hreaches, hunknown⟩ := hkeeps
    have hid : current'.id = id := hreaches.id.trans hlive.address
    cases res with
    | True =>
      obtain rfl := Option.some.inj hr
      refine single_recorded h true he hcurrent hsame hreaches
        (fun σ hσ => iff_of_true (hsound.1 _ rfl σ hσ).2 rfl) hown ?_
      rw [← hid]
      rfl
    | False =>
      obtain rfl := Option.some.inj hr
      refine single_recorded h false he hcurrent hsame hreaches
        (fun σ hσ => iff_of_false (hsound.2 _ rfl σ hσ).2 (by simp)) hown ?_
      rw [← hid]
      rfl
    | Unknown =>
      obtain ⟨rfl, rfl, -⟩ := hunknown rfl
      exact split_recorded h he hcurrent hsame hids hown hr

theorem terminateState_recorded (h : Recorded solver S s t) (hcall : s.terminateState id = some s')
    : Recorded solver S s' t := by
  simp only [terminateState, bind, Option.bind_eq_some_iff] at hcall
  obtain ⟨state, -, heq⟩ := hcall
  obtain rfl := Option.some.inj heq
  exact h.remove (Executor.terminateState_same s.executor state)

/-- What `fork` is told about the switches does not matter for what is recorded. -/
theorem execute_recorded (h : Recorded solver S s t) (ex : Executor)
    (hsame : s.executor.SameExecutor ex) (forkDisabled : ℕ → Bool) :
    Recorded solver S { s with
      executor := ex
      states := fun id => (s.states id).map fun state =>
        { state with forkDisabled := forkDisabled id } } t := by
  refine ⟨hsame.solver.trans h.solver, h.denotes, fun j state hstate => ?_⟩
  obtain ⟨old, hold, rfl⟩ := Option.map_eq_some_iff.mp hstate
  have hlive := h.live j old hold
  exact hlive.copy hlive.address (hlive.le.trans hsame.stateID.ge) rfl rfl (fun _ hk => hk) rfl rfl

theorem step_recorded (hcorrect : solver.solver.Correct)
    (hwidths : Executor.ValueWidths solver.solver) (h : Recorded solver S s t) {c : PathCall}
    (hvalid : s.Valid c) (hrecords : s.Records c) {a : Unit} (hstep : s.step c = some (a, s')) :
    s'.StreamsMatch solver S := by
  cases c with
  | fork id condition isInternal atStaticLimit getBool =>
    obtain ⟨s₁, hcall, heq⟩ := Option.map_eq_some_iff.mp hstep
    obtain ⟨-, rfl⟩ := Prod.mk.inj heq
    exact fork_recorded hcorrect hwidths h hvalid hrecords hcall
  | branch id conditions picks =>
    obtain ⟨s₁, hcall, heq⟩ := Option.map_eq_some_iff.mp hstep
    obtain ⟨-, rfl⟩ := Prod.mk.inj heq
    exact branch_recorded h hvalid hcall
  | addConstraint id condition =>
    obtain ⟨s₁, hcall, heq⟩ := Option.map_eq_some_iff.mp hstep
    obtain ⟨-, rfl⟩ := Prod.mk.inj heq
    exact addConstraint_recorded h hvalid hcall
  | terminateState id =>
    obtain ⟨s₁, hcall, heq⟩ := Option.map_eq_some_iff.mp hstep
    obtain ⟨-, rfl⟩ := Prod.mk.inj heq
    exact ⟨t, terminateState_recorded h hcall⟩
  | execute enableFork atMemoryLimit inhibitForking seedMap forkDisabled =>
    obtain ⟨-, rfl⟩ := Prod.mk.inj (Option.some.inj hstep)
    have hsame : s.executor.SameExecutor { s.executor with
      enableFork := enableFork
      atMemoryLimit := atMemoryLimit
      inhibitForking := inhibitForking
      seedMap := seedMap } := ⟨rfl, rfl⟩
    exact ⟨t, execute_recorded h _ hsame forkDisabled⟩

theorem init_recorded {state : ExecutionState} (buffer : ℕ → Byte)
    (hcs : ∀ c ∈ state.constraints, c.IsBool) (hid : state.id ≤ ex.stateID) :
    (init ex state buffer).StreamsMatch ex.solver fun σ => Satisfies σ state.constraints := by
  have hnew : (⟨.new buffer, fun _ => 0⟩ : PathStreams).pathWriter.Denotes Streams.new :=
    ⟨[], TreeStreamWriter.records_new buffer⟩
  obtain ⟨hdenotes, hos, hids⟩ := PathStreams.openFrom_denotes hnew
    (show (0 : BitVec 32) < 1 by decide) (show (1 : BitVec 32) < forkBit by decide) state.id
  refine ⟨_, rfl, hdenotes, fun j state' hstate => ?_⟩
  have hj : j = state.id := by
    by_contra hne
    change Function.update (fun _ => none) state.id (some state) j = some state' at hstate
    rw [Function.update_of_ne hne] at hstate
    exact absurd hstate (by simp)
  subst hj
  change Function.update (fun _ => none) state.id (some state) state.id = some state' at hstate
  rw [Function.update_self] at hstate
  obtain rfl := Option.some.inj hstate
  have hosState : (init ex state buffer).streams.pathOS state.id = 1 :=
    (congrFun hos _).trans (Function.update_self _ _ _)
  refine ⟨rfl, hid, ?_, ?_, hcs, List.forall_mem_nil _, fun σ => ?_⟩
  · rw [hosState]
    change _ ∧ _ < ((⟨.new buffer, fun _ => 0⟩ : PathStreams).openFrom state.id 0).pathWriter.ids
    rw [hids]
    exact ⟨by decide, show (1 : BitVec 32) < 1 + 1 by decide⟩
  · rw [hosState]
    change Function.update (fun _ => []) (1 : BitVec 32) [] 1 = []
    rw [Function.update_self]
  · exact (and_iff_left (List.forall_mem_nil _)).symm

end Calls

/-- The rule for runs: where every call is valid and records what it does, the streams are
those of the live states. -/
theorem reaches_recorded {ex : Executor} {state : ExecutionState} {buffer : ℕ → Byte}
    (hcorrect : ex.solver.solver.Correct) (hwidths : Executor.ValueWidths ex.solver.solver)
    (hcs : ∀ c ∈ state.constraints, c.IsBool) (hid : state.id ≤ ex.stateID) {s : PathRun}
    (h : Reaches step (fun s c => s.Valid c ∧ s.Records c) (init ex state buffer) s) :
    s.StreamsMatch ex.solver fun σ => Satisfies σ state.constraints := by
  refine h.invariant (init_recorded buffer hcs hid) ?_
  rintro s c a s' ⟨t, ht⟩ ⟨hvalid, hrecords⟩ hstep
  exact step_recorded hcorrect hwidths ht hvalid hrecords hstep

end PathRun

end Xklee
