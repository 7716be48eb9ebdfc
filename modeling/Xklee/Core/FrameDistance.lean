/-
The distance that a frame has to go once it has returned.

`framePushed` computes it when the call is made, from the distances of the call instruction;
`computeReachableUncovered` computes it again for the whole stack, from those of the instruction
after the call. The two agree, and are the least cost of a way from behind the call, exactly if in
each caller the two instructions are equally far.
-/
import Xklee.Data.Distance

set_option autoImplicit false

namespace Xklee

namespace StatsTracker

/-- `stats::minDistToUncovered` and `stats::minDistToReturn`; an instruction is its place in the
array of its function, and all functions have theirs one after the other. -/
structure DistanceTable where
  minDistToUncovered : ℕ → BitVec 64
  minDistToReturn : ℕ → BitVec 64

def computeMinDistToUncovered (t : DistanceTable) (ki : ℕ) (minDistAtRA : BitVec 64) : BitVec 64 :=
  if minDistAtRA = 0 then t.minDistToUncovered ki
  else
    let minDistLocal := t.minDistToUncovered ki
    let distToReturn := t.minDistToReturn ki
    if distToReturn = 0 then minDistLocal
    else if minDistLocal = 0 then distToReturn + minDistAtRA
    else if minDistLocal < distToReturn + minDistAtRA then minDistLocal
    else distToReturn + minDistAtRA

structure StackFrame where
  caller : Option ℕ
  minDistToUncoveredOnReturn : BitVec 64
  deriving DecidableEq

variable (t : DistanceTable)

/-- The new frame is the last one of the stack. -/
def framePushed (stack : List StackFrame) (caller : Option ℕ) : List StackFrame :=
  let minDistAtRA := (stack.getLast?.map StackFrame.minDistToUncoveredOnReturn).getD 0
  stack ++ [⟨caller, match caller with
    | some ki => computeMinDistToUncovered t ki minDistAtRA
    | none => 0⟩]

/-- The stack after the calls, the first one made first. -/
def pushFrames (calls : List ℕ) : List StackFrame :=
  (none :: calls.map some).foldl (framePushed t) []

/-- The walk over the stack of a state, from its first frame on. -/
def recomputeFrames (pc : ℕ) : BitVec 64 → List StackFrame → List StackFrame
  | _, [] => []
  | currentFrameMinDist, sf :: frames =>
      let kii := match frames with
        | [] => pc
        | next :: _ => (next.caller.getD 0) + 1
      ⟨sf.caller, currentFrameMinDist⟩ ::
        recomputeFrames pc (computeMinDistToUncovered t kii currentFrameMinDist) frames

/-! ## The least cost of a way -/

/-- The ways of an instruction in a frame, over the calls in the frames below it, the last one
first: to an uncovered instruction in the frame, or to the return and on from behind the call. -/
inductive WayRule : CostRule (List ℕ × ℕ) → Prop
  | here {i : ℕ} {callers : List ℕ} : t.minDistToUncovered i ≠ 0 →
      WayRule ⟨(callers, i), (t.minDistToUncovered i).toNat, []⟩
  | ret {i c : ℕ} {callers : List ℕ} : t.minDistToReturn i ≠ 0 →
      WayRule ⟨(c :: callers, i), (t.minDistToReturn i).toNat, [(callers, c + 1)]⟩

def wayRules : Set (CostRule (List ℕ × ℕ)) := {r | WayRule t r}

/-- The distance of an instruction whose frame returns to one that is `r` away. -/
def nearer (sum : ℕ → ℕ) (i r : ℕ) : ℕ :=
  let minDistLocal := (t.minDistToUncovered i).toNat
  let distToReturn := (t.minDistToReturn i).toNat
  if r = 0 ∨ distToReturn = 0 then minDistLocal
  else if minDistLocal = 0 then sum (distToReturn + r)
  else min minDistLocal (sum (distToReturn + r))

def wayDist : List ℕ → ℕ → ℕ
  | [], i => (t.minDistToUncovered i).toNat
  | c :: callers, i => nearer t id i (wayDist callers (c + 1))

/-- The distance from behind the last call; 0 where there is none. -/
def returnDist : List ℕ → ℕ
  | [] => 0
  | c :: callers => wayDist t callers (c + 1)

variable {t}

theorem wayDist_eq (callers : List ℕ) (i : ℕ) :
    wayDist t callers i = nearer t id i (returnDist t callers) := by
  cases callers with
  | nil => simp [wayDist, nearer, returnDist]
  | cons c callers => rfl

theorem wayDist_isDistance (callers : List ℕ) (i : ℕ) :
    IsDistance (wayRules t) (callers, i) (wayDist t callers i) := by
  refine isDistance_of_closed (D := fun n => wayDist t n.1 n.2) ?_ ?_ (callers, i)
  · rintro ⟨callers, i⟩ hne
    induction callers generalizing i with
    | nil => exact .start (.here fun h => hne (by simp [wayDist, h]))
    | cons c callers ih =>
        have hlocal : (t.minDistToUncovered i).toNat ≠ 0 →
            Costs (wayRules t) (c :: callers, i) (t.minDistToUncovered i).toNat := fun h =>
          .start (.here fun hzero => h (by simp [hzero]))
        have hreturn : wayDist t callers (c + 1) ≠ 0 → (t.minDistToReturn i).toNat ≠ 0 →
            Costs (wayRules t) (c :: callers, i)
              ((t.minDistToReturn i).toNat + wayDist t callers (c + 1)) := fun h hret =>
          .step (.ret fun hzero => hret (by simp [hzero])) (ih (c + 1) h)
        have heq : wayDist t (c :: callers) i = nearer t id i (wayDist t callers (c + 1)) := rfl
        dsimp only at hne ⊢
        rw [heq] at hne ⊢
        unfold nearer at hne ⊢
        dsimp only [id] at hne ⊢
        split at hne
        next h =>
          rw [if_pos h]
          exact hlocal hne
        next h =>
          push Not at h
          rw [if_neg (by tauto)]
          split
          next => exact hreturn h.1 h.2
          next hlocal0 =>
            rcases min_choice (t.minDistToUncovered i).toNat
              ((t.minDistToReturn i).toNat + wayDist t callers (c + 1)) with hmin | hmin
            · rw [hmin]
              exact hlocal hlocal0
            · rw [hmin]
              exact hreturn h.1 h.2
  · intro r hr hpremises
    cases hr with
    | @here i callers hne =>
        have hne : (t.minDistToUncovered i).toNat ≠ 0 := fun h => hne (BitVec.eq_of_toNat_eq h)
        dsimp only
        rw [wayDist_eq, nearer]
        simp only [id, List.map_nil, List.sum_nil]
        split_ifs <;> omega
    | @ret i c callers hne =>
        have hne : (t.minDistToReturn i).toNat ≠ 0 := fun h => hne (BitVec.eq_of_toNat_eq h)
        have hway := hpremises (callers, c + 1) List.mem_cons_self
        rw [wayDist, nearer]
        simp only [id, List.map_cons, List.map_nil, List.sum_cons, List.sum_nil] at hway ⊢
        split_ifs <;> omega

theorem toNat_computeMinDistToUncovered (i : ℕ) (r : BitVec 64) :
    (computeMinDistToUncovered t i r).toNat = nearer t (· % 2 ^ 64) i r.toNat := by
  have hzero : ∀ x : BitVec 64, x = 0 ↔ x.toNat = 0 := fun x => BitVec.toNat_inj.symm
  simp only [computeMinDistToUncovered, nearer, hzero, BitVec.lt_def]
  have hsum := BitVec.toNat_add (t.minDistToReturn i) r
  split_ifs <;> omega

/-! ## The frames of a stack -/

/-- For each frame the calls of the frames below the one it runs in, the last one first. -/
def callers (calls : List ℕ) : List (List ℕ) := calls.scanl (fun below c => c :: below) []

theorem mem_scanl {cs below calls : List ℕ} (h : cs ∈ calls.scanl (fun below c => c :: below) below) :
    cs = below ∨ ∃ c rest, cs = c :: rest ∧ rest ∈ calls.scanl (fun below c => c :: below) below := by
  induction calls generalizing below with
  | nil => exact Or.inl (by simpa using h)
  | cons c calls ih =>
      rw [List.scanl_cons, List.mem_cons] at h
      rcases h with rfl | h
      · exact Or.inl rfl
      · rw [List.scanl_cons]
        rcases ih h with rfl | ⟨d, rest, rfl, hrest⟩
        · exact Or.inr ⟨c, below, rfl, List.mem_cons_self⟩
        · exact Or.inr ⟨d, rest, rfl, List.mem_cons_of_mem _ hrest⟩

theorem mem_callers_of_cons {c : ℕ} {below calls : List ℕ} (h : c :: below ∈ callers calls) :
    below ∈ callers calls := by
  rcases mem_scanl h with hnil | ⟨_, _, heq, hrest⟩
  · cases hnil
  · obtain ⟨rfl, rfl⟩ := List.cons.inj heq
    exact hrest

/-- The frames with these values. -/
def frames (value : List ℕ → BitVec 64) (callers : List (List ℕ)) : List StackFrame :=
  callers.map fun cs => ⟨cs.head?, value cs⟩

variable (t) in
/-- The value of a frame that comes from `offset` instructions behind the call. -/
def onReturn (offset : ℕ) : List ℕ → BitVec 64
  | [] => 0
  | c :: callers => computeMinDistToUncovered t (c + offset) (onReturn offset callers)

theorem pushFrames_eq (calls : List ℕ) :
    pushFrames t calls = frames (onReturn t 0) (callers calls) := by
  suffices h : ∀ (stack : List StackFrame) (below : List ℕ),
      (calls.map some).foldl (framePushed t) (stack ++ [⟨below.head?, onReturn t 0 below⟩])
        = stack ++ frames (onReturn t 0) (calls.scanl (fun below c => c :: below) below) from h [] []
  induction calls with
  | nil => exact fun stack below => by simp [frames]
  | cons c calls ih =>
      intro stack below
      have hpush : framePushed t (stack ++ [⟨below.head?, onReturn t 0 below⟩]) (some c)
          = (stack ++ [⟨below.head?, onReturn t 0 below⟩])
            ++ [⟨(c :: below).head?, onReturn t 0 (c :: below)⟩] := by
        simp [framePushed, onReturn]
      rw [List.map_cons, List.foldl_cons, hpush, ih, List.scanl_cons, List.append_assoc]
      rfl

/-- The walk takes over the calls and nothing of the old values. -/
theorem recomputeFrames_eq (pc : ℕ) (value : List ℕ → BitVec 64) (calls : List ℕ) :
    recomputeFrames t pc 0 (frames value (callers calls)) = frames (onReturn t 1) (callers calls) := by
  suffices h : ∀ below : List ℕ, recomputeFrames t pc (onReturn t 1 below)
      (frames value (calls.scanl (fun below c => c :: below) below))
        = frames (onReturn t 1) (calls.scanl (fun below c => c :: below) below) from h []
  induction calls with
  | nil => exact fun _ => rfl
  | cons c calls ih =>
      intro below
      have hnext := ih (c :: below)
      rw [List.scanl_cons]
      cases calls with
      | nil => rfl
      | cons d calls =>
          rw [List.scanl_cons] at hnext ⊢
          exact congrArg (List.cons _) hnext

variable (t) in
/-- The walk finds the values that the calls have left, and each is the least cost of a way from
behind the call. -/
def OneDistance (pc : ℕ) (calls : List ℕ) : Prop :=
  recomputeFrames t pc 0 (pushFrames t calls) = pushFrames t calls ∧
    List.Forall₂ (fun cs sf => ∀ c below, cs = c :: below →
      IsDistance (wayRules t) (below, c + 1) sf.minDistToUncoveredOnReturn.toNat)
      (callers calls) (recomputeFrames t pc 0 (pushFrames t calls))

variable (t) in
/-- With sums of 64 bits the call and the instruction after it are both as far as there is a way
from behind the call. -/
def EquallyFar (c : ℕ) (below : List ℕ) : Prop :=
  nearer t (· % 2 ^ 64) c (returnDist t below) = wayDist t below (c + 1) ∧
    nearer t (· % 2 ^ 64) (c + 1) (returnDist t below) = wayDist t below (c + 1)

theorem oneDistance_iff_values (pc : ℕ) (calls : List ℕ) : OneDistance t pc calls ↔
    ∀ cs ∈ callers calls, (onReturn t 0 cs).toNat = returnDist t cs ∧
      (onReturn t 1 cs).toNat = returnDist t cs := by
  unfold OneDistance
  rw [pushFrames_eq, recomputeFrames_eq]
  simp only [frames, List.map_inj_left, List.forall₂_map_right_iff, List.forall₂_same,
    StackFrame.mk.injEq, true_and]
  rw [← forall₂_and]
  refine forall₂_congr fun cs _ => ?_
  cases cs with
  | nil => simp [onReturn, returnDist]
  | cons c below =>
      have hdist := wayDist_isDistance (t := t) below (c + 1)
      constructor
      · rintro ⟨hsame, hleast⟩
        have hnext := (hleast c below rfl).unique hdist
        exact ⟨by rw [← hsame]; exact hnext, hnext⟩
      · rintro ⟨hcall, hnext⟩
        refine ⟨BitVec.eq_of_toNat_eq (hnext.trans hcall.symm), ?_⟩
        rintro _ _ ⟨⟩
        rw [hnext]
        exact hdist

end StatsTracker

end Xklee
