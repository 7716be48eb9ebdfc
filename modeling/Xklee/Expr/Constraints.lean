/-
Path constraints: `lib/Expr/Constraints.cpp`.

A new constraint is first simplified with what the old ones say. Then it is
split at `And`s, and an equality with a constant rewrites the whole list: every
old constraint in which the other side occurs is added again, through the same
procedure. `ConstraintManager.Represents` is what all of these calls keep: the
list they return is satisfied exactly as intended, and when they run into the
"attempt to add invalid (false) constraint" assertion, nothing satisfies what
they were asked to add.

The weights of `Xklee.Expr.Weight` bound the recursion: a rewritten constraint
is lighter than it was.
-/
import Xklee.Expr.ReplaceVisitor

set_option autoImplicit false

namespace Xklee

/-! ## The visitors -/

/-- `ExprReplaceVisitor`: replaces `src` by `dst`, which is always a constant. -/
def ExprReplaceVisitor (src dst : Expr) (hdst : dst.isConstant = true) : ReplaceVisitor where
  visitExpr e := if e = src then some dst else none
  visitExprPost e := if e = src then some dst else none
  recursive := false
  visitExpr_lt e d he h := by
    split at h
    · obtain rfl : dst = d := by simpa using h
      rw [Expr.weight_eq_zero_iff.mpr hdst]
      exact Expr.weight_pos he
    · exact absurd h (by simp)
  visitExprPost_lt e d he h := by
    split at h
    · obtain rfl : dst = d := by simpa using h
      rw [Expr.weight_eq_zero_iff.mpr hdst]
      exact Expr.weight_pos he
    · exact absurd h (by simp)

/-- `ExprReplaceVisitor2`: replaces what the map has by the constant it has for
it, and visits what it has rebuilt again. -/
def ExprReplaceVisitor2 (replacements : List (Expr × APInt)) : ReplaceVisitor where
  visitExpr _ := none
  visitExprPost e := (replacements.lookup e).map .Constant
  recursive := true
  visitExpr_lt e d _ h := by simp at h
  visitExprPost_lt e d he h := by
    obtain ⟨c, -, rfl⟩ := Option.map_eq_some_iff.mp h
    exact Expr.weight_pos he

section Sound

variable {S : Env → Prop}

theorem ExprReplaceVisitor_sound {src dst : Expr} (hdst : dst.isConstant = true)
    (h : Same S src dst) : (ExprReplaceVisitor src dst hdst).Sound S := by
  have hvisit : ∀ e d : Expr, (if e = src then some dst else none) = some d → Same S e d := by
    intro e d hd
    split at hd
    · next he =>
      obtain rfl : dst = d := by simpa using hd
      rwa [he]
    · exact absurd hd (by simp)
  exact ⟨fun e d _ => hvisit e d, fun e d _ => hvisit e d⟩

theorem ExprReplaceVisitor2_sound {replacements : List (Expr × APInt)}
    (h : ∀ p ∈ replacements, Same S p.1 (.Constant p.2)) :
    (ExprReplaceVisitor2 replacements).Sound S := by
  refine ⟨fun e d _ hd => ?_, fun e d _ hd => ?_⟩
  · exact absurd hd (by simp [ExprReplaceVisitor2])
  · obtain ⟨c, hc, rfl⟩ := Option.map_eq_some_iff.mp hd
    obtain ⟨l₁, l₂, hl, -⟩ := List.lookup_eq_some_iff.mp hc
    exact h (e, c) (hl ▸ by simp)

end Sound

namespace ConstraintManager

/-! ## Adding constraints -/

/-- What a constraint lets `simplifyExpr` replace. -/
def equality : Expr → Expr × APInt
  | .Cmp .Eq (.Constant left) right => (right, left)
  | it => (it, .ofBool true)

/-- `ConstraintManager::simplifyExpr`. `std::map::insert` keeps the entry that
is there, so the first entry of an expression counts. -/
def simplifyExpr (constraints : List Expr) (e : Expr) : Expr :=
  if e.isConstant then e
  else ((ExprReplaceVisitor2 (constraints.map equality)).visit e).1

def totalWeight (constraints : List Expr) : ℕ := (constraints.map Expr.weight).sum

@[simp] theorem totalWeight_nil : totalWeight [] = 0 := rfl

@[simp] theorem totalWeight_cons (c : Expr) (cs : List Expr) :
    totalWeight (c :: cs) = c.weight + totalWeight cs := List.sum_cons

@[simp] theorem totalWeight_push (cs : List Expr) (c : Expr) :
    totalWeight (cs ++ [c]) = totalWeight cs + c.weight := by
  simp [totalWeight]

mutual

/-- `ConstraintManager::addConstraintInternal`; `none` when the assertion fails. -/
def addConstraintInternal (constraints : List Expr) (e : Expr) :
    Option {r : List Expr // totalWeight r ≤ totalWeight constraints + e.weight} :=
  match e with
  | .Constant c => if c.isTrue then some ⟨constraints, by simp⟩ else none
  | .Binary k left right =>
      if k = .And then
        match addConstraintInternal constraints left with
        | none => none
        | some r₁ =>
            match addConstraintInternal r₁.1 right with
            | none => none
            | some r₂ => some ⟨r₂.1, by
                have := r₁.2
                have := r₂.2
                simp only [Expr.weight_Binary]
                omega⟩
      else some ⟨constraints ++ [.Binary k left right], by rw [totalWeight_push]⟩
  | .Cmp k left right =>
      if h : k = .Eq ∧ left.isConstant = true then
        match rewriteConstraints (ExprReplaceVisitor right left h.2) constraints [] false with
        | none => none
        | some (r, _) => some ⟨r.1 ++ [.Cmp k left right], by
            have := r.2
            simp only [totalWeight_push, totalWeight_nil] at this ⊢
            omega⟩
      else some ⟨constraints ++ [.Cmp k left right], by rw [totalWeight_push]⟩
  | e => some ⟨constraints ++ [e], by rw [totalWeight_push]⟩
termination_by (totalWeight constraints + e.weight, e.size)
decreasing_by
  · simp only [Prod.lex_def, Expr.weight_Binary, Expr.size_Binary]
    omega
  · have := r₁.2
    simp only [Prod.lex_def, Expr.weight_Binary, Expr.size_Binary]
    omega
  · simp only [Prod.lex_def, Expr.weight_Cmp, totalWeight_nil]
    omega

/-- `ConstraintManager::rewriteConstraints`, from the constraint at which the
loop over `old` stands. It also returns whether something has changed. -/
def rewriteConstraints (visitor : ReplaceVisitor) (old constraints : List Expr)
    (changed : Bool) :
    Option ({r : List Expr // totalWeight r ≤ totalWeight constraints + totalWeight old} × Bool) :=
  match old with
  | [] => some (⟨constraints, by simp⟩, changed)
  | ce :: old =>
      if hne : (visitor.visit ce).1 ≠ ce then
        match addConstraintInternal constraints (visitor.visit ce).1 with
        | none => none
        | some r =>
            match rewriteConstraints visitor old r.1 true with
            | none => none
            | some (r', changed) => some (⟨r'.1, by
                have := r.2
                have := r'.2
                have := (visitor.visit ce).2.weight_le
                simp only [totalWeight_cons]
                omega⟩, changed)
      else
        match rewriteConstraints visitor old (constraints ++ [ce]) changed with
        | none => none
        | some (r', changed) => some (⟨r'.1, by
            have h' := r'.2
            simp only [totalWeight_cons, totalWeight_push] at h' ⊢
            omega⟩, changed)
termination_by (totalWeight constraints + totalWeight old, old.length)
decreasing_by
  · have := (visitor.visit ce).2.resolve_left hne
    simp only [Prod.lex_def, totalWeight_cons]
    omega
  · have := (visitor.visit ce).2.resolve_left hne
    have := r.2
    simp only [Prod.lex_def, totalWeight_cons]
    omega
  · simp only [Prod.lex_def, totalWeight_cons, totalWeight_push, List.length_cons]
    omega

end

/-- `ConstraintManager::addConstraint`. -/
def addConstraint (constraints : List Expr) (e : Expr) : Option (List Expr) :=
  (addConstraintInternal constraints (simplifyExpr constraints e)).map (·.1)

/-- A sequence of calls of `addConstraint`. -/
def addConstraints (constraints : List Expr) (es : List Expr) : Option (List Expr) :=
  es.foldlM addConstraint constraints

/-! ## What adding keeps -/

/-- A call that is to add what `P` says. The list it returns is Bool, and under
the assignments of `S` it is satisfied exactly when `P` holds. When an assertion
fails, `P` holds under none of them. -/
def Represents (S P : Env → Prop) : Option (List Expr) → Prop
  | some r => (∀ c ∈ r, c.IsBool) ∧ ∀ σ, S σ → (Satisfies σ r ↔ P σ)
  | none => ∀ σ, S σ → ¬P σ

section Represents

variable {S P Q : Env → Prop} {constraints : List Expr}

theorem Represents.congr {o : Option (List Expr)} (h : Represents S P o)
    (hPQ : ∀ σ, S σ → (P σ ↔ Q σ)) : Represents S Q o := by
  cases o with
  | none => exact fun σ hσ hQ => h σ hσ ((hPQ σ hσ).mpr hQ)
  | some r => exact ⟨h.1, fun σ hσ => (h.2 σ hσ).trans (hPQ σ hσ)⟩

variable {σ : Env} {e : Expr}

theorem satisfies_push :
    Satisfies σ (constraints ++ [e]) ↔ Satisfies σ constraints ∧ e.Holds σ := by
  simp [Satisfies, or_imp, forall_and]

theorem satisfies_cons :
    Satisfies σ (e :: constraints) ↔ e.Holds σ ∧ Satisfies σ constraints := by
  simp [Satisfies]

theorem isBool_push (hcs : ∀ c ∈ constraints, c.IsBool) (he : e.IsBool) :
    ∀ c ∈ constraints ++ [e], c.IsBool := by
  intro c hc
  rcases List.mem_append.mp hc with hc | hc
  · exact hcs c hc
  · rwa [List.mem_singleton.mp hc]

theorem represents_push (hcs : ∀ c ∈ constraints, c.IsBool) (he : e.IsBool) :
    Represents S (fun σ => Satisfies σ constraints ∧ e.Holds σ) (some (constraints ++ [e])) :=
  ⟨isBool_push hcs he, fun _ _ => satisfies_push⟩

end Represents

variable {left right : Expr} {constraints : List Expr} {e : Expr}

theorem isBool_And (h : (Expr.Binary .And left right).IsBool) :
    left.IsBool ∧ right.IsBool :=
  ⟨⟨h.1.1, h.2⟩, ⟨h.1.2.1, h.1.2.2.symm.trans h.2⟩⟩

theorem holds_And (h : (Expr.Binary .And left right).IsBool) (σ : Env) :
    (Expr.Binary .And left right).Holds σ ↔ left.Holds σ ∧ right.Holds σ := by
  have hl := (isBool_And h).1.denotes σ
  have hr := (isBool_And h).2.denotes σ
  have hand : Denotes σ (.Binary .And left right)
      (BitVec.ofBool (decide (left.Holds σ) && decide (right.Holds σ))) := by
    have := denotes_binary (k := .And) hl hr
    rwa [BinaryKind.apply, BitVec.ofBool_and_ofBool] at this
  rw [hand.holds_iff]
  simp

/-- An equality says that its sides have one value. -/
theorem holds_Eq (h : (Expr.Cmp .Eq left right).WellTyped) (σ : Env) :
    (Expr.Cmp .Eq left right).Holds σ ↔ left.eval σ = right.eval σ := by
  obtain ⟨hl, hr, hw⟩ := h
  obtain ⟨x, hx⟩ := hl.denotes (σ := σ) rfl
  obtain ⟨y, hy⟩ := hr.denotes (σ := σ) hw.symm
  rw [(denotes_cmp hx hy).holds_iff, hx.2, hy.2]
  simp [CmpKind.holds]

/-- Where an equality holds, its left side may stand for its right side. -/
theorem same_of_Eq (h : (Expr.Cmp .Eq left right).WellTyped) :
    Same (fun σ => (Expr.Cmp .Eq left right).Holds σ) right left :=
  ⟨h.1, h.2.2, fun σ hσ => (holds_Eq h σ).mp hσ⟩

mutual

theorem addConstraintInternal_represents (constraints : List Expr) (e : Expr)
    (hcs : ∀ c ∈ constraints, c.IsBool) (he : e.IsBool) :
    Represents (fun _ => True) (fun σ => Satisfies σ constraints ∧ e.Holds σ)
      ((addConstraintInternal constraints e).map (·.1)) := by
  match e with
  | .Constant c =>
    rw [addConstraintInternal]
    split
    next hc => exact ⟨hcs, fun σ _ => ⟨fun h => ⟨h, hc⟩, fun h => h.1⟩⟩
    next hc => exact fun σ _ h => hc h.2
  | .Binary k left right =>
    rw [addConstraintInternal]
    split
    next hk =>
      subst hk
      have hP : ∀ σ, Satisfies σ constraints ∧ (Expr.Binary .And left right).Holds σ ↔
          (Satisfies σ constraints ∧ left.Holds σ) ∧ right.Holds σ := by
        intro σ
        rw [holds_And he, and_assoc]
      have hleft := addConstraintInternal_represents constraints left hcs (isBool_And he).1
      split
      next h₁ =>
        rw [h₁] at hleft
        exact fun σ hσ h => hleft σ hσ ((hP σ).mp h).1
      next r₁ h₁ =>
        rw [h₁] at hleft
        have := r₁.2
        have hright := addConstraintInternal_represents r₁.1 right hleft.1 (isBool_And he).2
        have hQ : ∀ σ, True → (Satisfies σ r₁.1 ∧ right.Holds σ ↔
            Satisfies σ constraints ∧ (Expr.Binary .And left right).Holds σ) := by
          intro σ hσ
          rw [hP σ, hleft.2 σ hσ]
        split
        next h₂ =>
          rw [h₂] at hright
          exact hright.congr hQ
        next r₂ h₂ =>
          rw [h₂] at hright
          exact hright.congr hQ
    next => exact represents_push hcs he
  | .Cmp k left right =>
    rw [addConstraintInternal]
    split
    next h =>
      obtain ⟨rfl, hleft⟩ := h
      have hsound := ExprReplaceVisitor_sound hleft (same_of_Eq he.1)
      have hold := rewriteConstraints_represents _ hsound constraints [] false hcs (by simp)
      have hnil : ∀ σ, Satisfies σ [] := fun σ c hc => absurd hc List.not_mem_nil
      split
      next h =>
        rw [h] at hold
        exact fun σ _ hP => hold σ hP.2 ⟨hnil σ, hP.1⟩
      next r _ h =>
        rw [h] at hold
        refine ⟨isBool_push hold.1 he, fun σ _ => ?_⟩
        rw [satisfies_push, and_congr_left_iff]
        intro hE
        rw [hold.2 σ hE]
        exact and_iff_right (hnil σ)
    next => exact represents_push hcs he
  | .NotOptimized e | .Read ul i | .Select c t f | .Concat l r | .Extract e off w | .Cast k e w
  | .Not e =>
    rw [addConstraintInternal]
    · exact represents_push hcs he
    all_goals
      intros
      contradiction
termination_by (totalWeight constraints + e.weight, e.size)
decreasing_by
  all_goals
    simp only [Prod.lex_def, Expr.weight_Binary, Expr.size_Binary, Expr.weight_Cmp,
      totalWeight_nil]
    omega

/-- Rewriting keeps every constraint, under the assignments for which the
visitor keeps the value. -/
theorem rewriteConstraints_represents {S : Env → Prop} (visitor : ReplaceVisitor)
    (hv : visitor.Sound S) (old constraints : List Expr) (changed : Bool)
    (hold : ∀ c ∈ old, c.IsBool) (hcs : ∀ c ∈ constraints, c.IsBool) :
    Represents S (fun σ => Satisfies σ constraints ∧ Satisfies σ old)
      ((rewriteConstraints visitor old constraints changed).map (·.1.1)) := by
  match old with
  | [] =>
    rw [rewriteConstraints]
    refine ⟨hcs, fun σ _ => ?_⟩
    simp [Satisfies]
  | ce :: old =>
    obtain ⟨hce, hold⟩ := List.forall_mem_cons.mp hold
    have hsame := ReplaceVisitor.visit_same hv ce hce.1
    rw [rewriteConstraints]
    split
    next hne =>
      have := (visitor.visit ce).2.resolve_left hne
      have hadd := addConstraintInternal_represents constraints (visitor.visit ce).1 hcs
        (hsame.isBool hce)
      -- what is added again says, under `S`, what the old constraint said
      have hP : ∀ σ, S σ → ((Satisfies σ constraints ∧ (visitor.visit ce).1.Holds σ)
          ∧ Satisfies σ old ↔ Satisfies σ constraints ∧ Satisfies σ (ce :: old)) := by
        intro σ hσ
        rw [hsame.holds_iff hσ, satisfies_cons, and_assoc]
      split
      next h =>
        rw [h] at hadd
        exact fun σ hσ hs => hadd σ trivial ((hP σ hσ).mpr hs).1
      next r h =>
        rw [h] at hadd
        have := r.2
        have hrest := rewriteConstraints_represents visitor hv old r.1 true hold hadd.1
        have hQ : ∀ σ, S σ → (Satisfies σ r.1 ∧ Satisfies σ old ↔
            Satisfies σ constraints ∧ Satisfies σ (ce :: old)) := by
          intro σ hσ
          rw [← hP σ hσ, hadd.2 σ trivial]
        split
        next h =>
          rw [h] at hrest
          exact hrest.congr hQ
        next r' c h =>
          rw [h] at hrest
          exact hrest.congr hQ
    next =>
      have hrest := rewriteConstraints_represents visitor hv old (constraints ++ [ce]) changed
        hold (isBool_push hcs hce)
      have hQ : ∀ σ, S σ → (Satisfies σ (constraints ++ [ce]) ∧ Satisfies σ old ↔
          Satisfies σ constraints ∧ Satisfies σ (ce :: old)) := by
        intro σ _
        rw [satisfies_push, satisfies_cons, and_assoc]
      split
      next h =>
        rw [h] at hrest
        exact hrest.congr hQ
      next r' c h =>
        rw [h] at hrest
        exact hrest.congr hQ
termination_by (totalWeight constraints + totalWeight old, old.length)
decreasing_by
  all_goals
    simp only [Prod.lex_def, totalWeight_cons, totalWeight_push, List.length_cons]
    omega

end

/-! ## Simplification -/

theorem equality_same {c : Expr} (hc : c.IsBool) :
    Same (fun σ => c.Holds σ) (equality c).1 (.Constant (equality c).2) := by
  have htrue : Same (fun σ => c.Holds σ) c (.Constant (.ofBool true)) := by
    refine ⟨Nat.one_pos, hc.2.symm, fun σ hσ => ?_⟩
    have h := hc.denotes σ
    rw [decide_eq_true hσ] at h
    exact h.2.symm
  unfold equality
  split
  · exact same_of_Eq hc.1
  · exact htrue

/-- Where the constraints hold, simplifying keeps the value. -/
theorem simplifyExpr_same (hcs : ∀ c ∈ constraints, c.IsBool) (he : e.WellTyped) :
    Same (fun σ => Satisfies σ constraints) e (simplifyExpr constraints e) := by
  rw [simplifyExpr]
  split
  · exact Same.refl he
  · refine ReplaceVisitor.visit_same (ExprReplaceVisitor2_sound ?_) e he
    intro p hp
    obtain ⟨c, hc, rfl⟩ := List.mem_map.mp hp
    have h := equality_same (hcs c hc)
    exact ⟨h.wellTyped, h.width, fun σ hσ => h.eval σ (hσ c hc)⟩

/-- What `addConstraint` returns, or what its failure means. -/
theorem addConstraint_represents (hcs : ∀ c ∈ constraints, c.IsBool) {e : Expr} (he : e.IsBool) :
    Represents (fun _ => True) (fun σ => Satisfies σ constraints ∧ e.Holds σ)
      (addConstraint constraints e) := by
  have hsame := simplifyExpr_same hcs he.1
  refine (addConstraintInternal_represents constraints _ hcs (hsame.isBool he)).congr ?_
  intro σ _
  rw [and_congr_right_iff]
  exact fun hσ => hsame.holds_iff hσ

/-- The list that a sequence of calls leaves behind is Bool and says what the
calls were given. -/
theorem addConstraints_represents {r : List Expr} (es : List Expr)
    (hcs : ∀ c ∈ constraints, c.IsBool) (hes : ∀ e ∈ es, e.IsBool)
    (h : addConstraints constraints es = some r) :
    (∀ c ∈ r, c.IsBool) ∧ ∀ σ, Satisfies σ r ↔ Satisfies σ constraints ∧ Satisfies σ es := by
  induction es generalizing constraints with
  | nil =>
    obtain rfl : constraints = r := by simpa [addConstraints] using h
    exact ⟨hcs, fun σ => by simp [Satisfies]⟩
  | cons e es ih =>
    obtain ⟨he, hes⟩ := List.forall_mem_cons.mp hes
    rw [addConstraints, List.foldlM_cons] at h
    obtain ⟨r₁, h₁, hrest⟩ := Option.bind_eq_some_iff.mp h
    have hadd := addConstraint_represents hcs he
    rw [h₁] at hadd
    have hr := ih hadd.1 hes hrest
    refine ⟨hr.1, fun σ => ?_⟩
    rw [hr.2 σ, hadd.2 σ trivial, satisfies_cons, and_assoc]

/-- `addConstraint` preserves meaning. Whatever list a sequence of calls has left
behind, a call that adds a Bool expression compatible with it returns, and what
it returns is satisfied by exactly the assignments that satisfy the old list and
the expression. -/
theorem addConstraint_correct (es : List Expr) (hes : ∀ e ∈ es, e.IsBool)
    {constraints : List Expr} (hrun : addConstraints [] es = some constraints) {e : Expr}
    (he : e.IsBool) (hsat : ∃ σ, Satisfies σ constraints ∧ e.Holds σ) :
    ∃ r, addConstraint constraints e = some r
      ∧ ∀ σ, Satisfies σ r ↔ Satisfies σ constraints ∧ e.Holds σ := by
  have hcs := (addConstraints_represents es (by simp) hes hrun).1
  have hadd := addConstraint_represents hcs he
  cases h : addConstraint constraints e with
  | none =>
    rw [h] at hadd
    obtain ⟨σ, hσ⟩ := hsat
    exact absurd hσ (hadd σ trivial)
  | some r =>
    rw [h] at hadd
    exact ⟨r, rfl, fun σ => hadd.2 σ trivial⟩

/-- The first byte of an array of four. -/
def firstByte : Expr :=
  .Read (.root ⟨0, "a", 4, [], .inl rfl⟩) (.Constant ⟨32, 0⟩)

/-- The byte is above 5, then it is 7: the equality rewrites the old constraint. -/
theorem addConstraint_correct_byte :
    ∃ constraints, addConstraints [] [.Cmp .Ult (.Constant ⟨8, 5⟩) firstByte] = some constraints
      ∧ ∃ r, addConstraint constraints (.Cmp .Eq (.Constant ⟨8, 7⟩) firstByte) = some r
        ∧ ∀ σ, Satisfies σ r ↔ Satisfies σ constraints
          ∧ (Expr.Cmp .Eq (.Constant ⟨8, 7⟩) firstByte).Holds σ := by
  have habove : (Expr.Cmp .Ult (.Constant ⟨8, 5⟩) firstByte).IsBool := by decide
  obtain ⟨constraints, hadd, hiff⟩ := addConstraint_correct [] (by simp) rfl habove
    ⟨fun _ _ => 7, by decide⟩
  have hrun : addConstraints [] [.Cmp .Ult (.Constant ⟨8, 5⟩) firstByte] = some constraints := by
    rw [addConstraints, List.foldlM_cons, hadd]
    rfl
  refine ⟨constraints, hrun, ?_⟩
  exact addConstraint_correct _ (List.forall_mem_singleton.mpr habove) hrun (by decide)
    ⟨fun _ _ => 7, (hiff _).mpr (by decide), by decide⟩

end ConstraintManager

end Xklee
