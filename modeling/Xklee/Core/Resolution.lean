/-
`AddressSpace::resolve` and `resolveOne` find the objects in which an address may be.

Both walk from the object before an example address downwards and then upwards from there, and
stop where the address must be behind or before an object. An object is feasible when an
assignment puts the address in it. `resolve` keeps feasible objects only; when it says that it
is complete, it has kept all of them.
-/
import Xklee.ADT.TreeIterator
import Xklee.Solver.ExactSolver

set_option autoImplicit false

namespace Xklee

namespace MemoryExecutor

/-- Some assignment puts the address in the object. -/
def Feasible (constraints : List Expr) (address : Expr) (o : BoundObject) : Prop :=
  ∃ σ, Satisfies σ constraints ∧ o.Near (ObjectState.address σ address)

/-- Every assignment does. -/
def Always (constraints : List Expr) (address : Expr) (o : BoundObject) : Prop :=
  ∀ σ, Satisfies σ constraints → o.Near (ObjectState.address σ address)

/-- What is kept at an object. -/
structure Kept (constraints : List Expr) (address : Expr) (maxResolutions : ℕ) (o : BoundObject)
    (rl rl' : List BoundObject) (res : Option Bool) : Prop where
  list : rl' = rl ∧ (res = none → ¬Feasible constraints address o)
    ∨ rl' = rl ++ [o] ∧ Feasible constraints address o
      ∧ (res = none → rl'.length = 1 ∨ rl'.length ≠ maxResolutions)
  complete : res = some false → Always constraints address o ∧ o ∈ rl'

/-- What a loop over `part` makes of the list `rl`, and with what it returns, if it does. -/
structure Walked (constraints : List Expr) (address : Expr) (maxResolutions : ℕ)
    (part rl rl' : List BoundObject) (res : Option Bool) : Prop where
  appends : ∃ l, rl' = rl ++ l ∧ l.Sublist part ∧ ∀ o ∈ l, Feasible constraints address o
  complete : res = none → ∀ o ∈ part, Feasible constraints address o → o ∈ rl'
  always : res = some false → ∃ o ∈ rl', Always constraints address o
  bounded : 2 ≤ maxResolutions → rl.length < maxResolutions →
    rl'.length ≤ maxResolutions ∧ (res = none → rl'.length < maxResolutions)

section Walk

variable {constraints : List Expr} {address : Expr} {maxResolutions : ℕ} {o : BoundObject}
  {part rl rl₁ rl' : List BoundObject} {res : Option Bool}

/-- The loop ends before objects that are not feasible. -/
theorem Walked.stop (hnot : ∀ o ∈ part, ¬Feasible constraints address o) :
    Walked constraints address maxResolutions part rl rl none where
  appends := ⟨[], (List.append_nil rl).symm, part.nil_sublist, fun o ho => absurd ho List.not_mem_nil⟩
  complete _ o ho hfeasible := absurd hfeasible (hnot o ho)
  always h := absurd h (by simp)
  bounded _ hlt := ⟨hlt.le, fun _ => hlt⟩

/-- The loop gives up. -/
theorem Walked.giveUp : Walked constraints address maxResolutions part rl rl (some true) where
  appends := ⟨[], (List.append_nil rl).symm, part.nil_sublist, fun o ho => absurd ho List.not_mem_nil⟩
  complete h := absurd h (by simp)
  always h := absurd h (by simp)
  bounded _ hlt := ⟨hlt.le, fun h => absurd h (by simp)⟩

/-- What keeping an object means for the list. -/
theorem Kept.walked (h : Kept constraints address maxResolutions o rl rl' res) :
    Walked constraints address maxResolutions [o] rl rl' res := by
  refine ⟨?_, fun hres p hp hfeasible => ?_, fun hres => ?_, fun htwo hlt => ?_⟩
  · rcases h.list with ⟨rfl, -⟩ | ⟨rfl, hfeasible, -⟩
    · exact ⟨[], (List.append_nil _).symm, List.nil_sublist _, fun p hp => absurd hp List.not_mem_nil⟩
    · exact ⟨[o], rfl, List.Sublist.refl _, fun p hp => List.mem_singleton.mp hp ▸ hfeasible⟩
  · rw [List.mem_singleton.mp hp] at hfeasible ⊢
    rcases h.list with ⟨-, hnot⟩ | ⟨rfl, -, -⟩
    · exact absurd hfeasible (hnot hres)
    · exact List.mem_append_right _ (List.mem_singleton_self o)
  · obtain ⟨halways, hmem⟩ := h.complete hres
    exact ⟨o, hmem, halways⟩
  · rcases h.list with ⟨rfl, -⟩ | ⟨rfl, -, hroom⟩
    · exact ⟨hlt.le, fun _ => hlt⟩
    · have hlength : (rl ++ [o]).length = rl.length + 1 := by simp
      refine ⟨by omega, fun hres => ?_⟩
      have hroom := hroom hres
      omega

variable {part' : List BoundObject}

/-- The loop goes on after a part. -/
theorem Walked.append (h : Walked constraints address maxResolutions part rl rl₁ none)
    (h' : Walked constraints address maxResolutions part' rl₁ rl' res) :
    Walked constraints address maxResolutions (part ++ part') rl rl' res := by
  obtain ⟨l, rfl, hsub, hfeasible⟩ := h.appends
  obtain ⟨l', rfl, hsub', hfeasible'⟩ := h'.appends
  refine ⟨⟨l ++ l', List.append_assoc rl l l', hsub.append hsub', fun o ho => ?_⟩,
    fun hres o ho hf => ?_, h'.always, fun htwo hlt => ?_⟩
  · exact (List.mem_append.mp ho).elim (hfeasible o) (hfeasible' o)
  · rcases List.mem_append.mp ho with ho | ho
    · exact List.mem_append_left _ (h.complete rfl o ho hf)
    · exact h'.complete hres o ho hf
  · exact h'.bounded htwo ((h.bounded htwo hlt).2 rfl)

/-- The loop returns at the last object that it has looked at. -/
theorem Walked.returns {incomplete : Bool}
    (h : Walked constraints address maxResolutions part rl rl' (some incomplete)) :
    Walked constraints address maxResolutions (part ++ part') rl rl' (some incomplete) := by
  obtain ⟨l, hl, hsub, hfeasible⟩ := h.appends
  exact ⟨⟨l, hl, hsub.trans (List.sublist_append_left part part'), hfeasible⟩,
    fun hres => absurd hres (by simp), h.always, h.bounded⟩

/-- The loop gives up after a part. -/
theorem Walked.giveUpAfter (h : Walked constraints address maxResolutions part rl rl' none) :
    Walked constraints address maxResolutions (part ++ part') rl rl' (some true) :=
  Walked.returns (by
    obtain ⟨l, hl, hsub, hfeasible⟩ := h.appends
    exact ⟨⟨l, hl, hsub, hfeasible⟩, fun hres => absurd hres (by simp),
      fun hres => absurd hres (by simp), fun htwo hlt =>
        ⟨(h.bounded htwo hlt).1, fun hres => absurd hres (by simp)⟩⟩)

end Walk

section Resolve

variable {ex : MemoryExecutor} {constraints : List Expr} {objects : List BoundObject}
  {address : Expr} {maxResolutions : ℕ} {late : BoundObject → Bool}

section Truthful

variable (maxResolutions late) (hsolver : ex.solver.Truthful constraints) (hlayout : Layout ex.pointerWidth objects)
  (htyped : address.WellTyped) (hwidth : address.width = ex.pointerWidth)

include hlayout htyped hwidth

variable {o : BoundObject} {b : Bool} {part : List BoundObject}

theorem boundsCheck_bool (ho : o ∈ objects) :
    (o.mo.getBoundsCheckPointer ex.pointerWidth address).IsBool := by
  have hden := MemoryObject.boundsCheck_denotes hlayout ho htyped hwidth fun _ _ => 0
  exact ⟨hden.1, hden.2.1⟩

include hsolver

/-- What the answers to the queries say. -/
theorem mayBeIn (ho : o ∈ objects)
    (hb : ex.solver.mayBeTrue constraints (o.mo.getBoundsCheckPointer ex.pointerWidth address)
      = some b) :
    b = true ↔ Feasible constraints address o := by
  refine (hsolver.mayBeTrue (boundsCheck_bool hlayout htyped hwidth ho) hb).trans ?_
  exact exists_congr fun σ => and_congr_right fun _ =>
    (MemoryObject.boundsCheck_denotes hlayout ho htyped hwidth σ).2.2

theorem mustBeIn (ho : o ∈ objects)
    (hb : ex.solver.mustBeTrue constraints (o.mo.getBoundsCheckPointer ex.pointerWidth address)
      = some b) :
    b = true ↔ Always constraints address o := by
  refine (hsolver.mustBeTrue (boundsCheck_bool hlayout htyped hwidth ho) hb).trans ?_
  exact forall₂_congr fun σ _ => (MemoryObject.boundsCheck_denotes hlayout ho htyped hwidth σ).2.2

theorem mustBeBehind_iff (ho : o ∈ objects) (hb : ex.mustBeBehind constraints address o = some b) :
    b = true ↔ ∀ σ, Satisfies σ constraints → o.address ≤ ObjectState.address σ address := by
  have hden := MemoryObject.behind_denotes hlayout ho htyped hwidth
  refine (hsolver.mustBeTrue (hden fun _ _ => 0).1 hb).trans ?_
  exact forall₂_congr fun σ _ => (hden σ).2

theorem mustBeBefore_iff (ho : o ∈ objects) (hb : ex.mustBeBefore constraints address o = some b) :
    b = true ↔ ∀ σ, Satisfies σ constraints → ObjectState.address σ address < o.address := by
  have hden := MemoryObject.before_denotes hlayout ho htyped hwidth
  refine (hsolver.mustBeTrue (hden fun _ _ => 0).1 hb).trans ?_
  exact forall₂_congr fun σ _ => (hden σ).2

/-- Behind an object, the address is in none of those below. -/
theorem not_feasible_below (ho : o ∈ objects)
    (hb : ex.mustBeBehind constraints address o = some true)
    (hbelow : ∀ p ∈ part, p.address + p.extent ≤ o.address) :
    ∀ p ∈ part, ¬Feasible constraints address p := by
  rintro p hp ⟨σ, hσ, -, hlt⟩
  have hle := (mustBeBehind_iff hsolver hlayout htyped hwidth ho hb).mp rfl σ hσ
  have hpo := hbelow p hp
  omega

/-- Before an object, the address is neither in it nor in those above. -/
theorem not_feasible_above (ho : o ∈ objects)
    (hb : ex.mustBeBefore constraints address o = some true)
    (habove : ∀ p ∈ part, o.address + o.extent ≤ p.address) :
    ∀ p ∈ o :: part, ¬Feasible constraints address p := by
  rintro p hp ⟨σ, hσ, hle, -⟩
  have hlt := (mustBeBefore_iff hsolver hlayout htyped hwidth ho hb).mp rfl σ hσ
  rcases List.mem_cons.mp hp with rfl | hp
  · omega
  · have hop := habove p hp
    omega

theorem keepResolution_kept (ho : o ∈ objects) (rl : List BoundObject) :
    Kept constraints address maxResolutions o rl
      (ex.keepResolution constraints address maxResolutions o rl).2
      (ex.keepResolution constraints address maxResolutions o rl).1 := by
  rw [keepResolution]
  dsimp only
  cases hmay : ex.solver.mayBeTrue constraints
      (o.mo.getBoundsCheckPointer ex.pointerWidth address) with
  | none => exact ⟨.inl ⟨rfl, fun h => absurd h (by simp)⟩, fun h => absurd h (by simp)⟩
  | some may =>
    have hfeasible := mayBeIn hsolver hlayout htyped hwidth ho hmay
    cases may with
    | false =>
      exact ⟨.inl ⟨rfl, fun _ hf => absurd (hfeasible.mpr hf) (by simp)⟩, fun h => absurd h (by simp)⟩
    | true =>
      have hf := hfeasible.mp rfl
      have hmem : o ∈ rl ++ [o] := List.mem_append_right _ (List.mem_singleton_self o)
      dsimp only
      split
      next hone =>
        cases hmust : ex.solver.mustBeTrue constraints
            (o.mo.getBoundsCheckPointer ex.pointerWidth address) with
        | none => exact ⟨.inr ⟨rfl, hf, fun h => absurd h (by simp)⟩, fun h => absurd h (by simp)⟩
        | some must =>
          have halways := mustBeIn hsolver hlayout htyped hwidth ho hmust
          cases must with
          | true =>
            exact ⟨.inr ⟨rfl, hf, fun h => absurd h (by simp)⟩, fun _ => ⟨halways.mp rfl, hmem⟩⟩
          | false => exact ⟨.inr ⟨rfl, hf, fun _ => .inl hone⟩, fun h => absurd h (by simp)⟩
      next =>
        split
        next => exact ⟨.inr ⟨rfl, hf, fun h => absurd h (by simp)⟩, fun h => absurd h (by simp)⟩
        next hne => exact ⟨.inr ⟨rfl, hf, fun _ => .inr hne⟩, fun h => absurd h (by simp)⟩

/-- The first loop, from the last object downwards. -/
theorem resolveBelow_walked (hpart : ∀ o ∈ part, o ∈ objects)
    (hdown : part.Pairwise fun o p => p.address + p.extent ≤ o.address) (rl : List BoundObject) :
    Walked constraints address maxResolutions part rl
      (ex.resolveBelow constraints address maxResolutions late part rl).2
      (ex.resolveBelow constraints address maxResolutions late part rl).1 := by
  induction part generalizing rl with
  | nil => exact .stop fun o ho => absurd ho List.not_mem_nil
  | cons o part ih =>
    obtain ⟨ho, hpart⟩ := List.forall_mem_cons.mp hpart
    obtain ⟨hbelow, hdown⟩ := List.pairwise_cons.mp hdown
    have hkept := keepResolution_kept maxResolutions hsolver hlayout htyped hwidth
      ho rl
    rw [resolveBelow]
    split
    next => exact .giveUp
    next =>
      cases hkeep : ex.keepResolution constraints address maxResolutions o rl with
      | mk res rl₁ =>
        rw [hkeep] at hkept
        have hone := hkept.walked
        cases res with
        | some incomplete => exact hone.returns
        | none =>
          dsimp only
          cases hbehind : ex.mustBeBehind constraints address o with
          | none => exact hone.giveUpAfter
          | some behind =>
            cases behind with
            | false => exact hone.append (ih hpart hdown rl₁)
            | true =>
              exact hone.append
                (.stop (not_feasible_below hsolver hlayout htyped hwidth ho hbehind hbelow))

/-- The second loop, upwards. -/
theorem resolveAbove_walked (hpart : ∀ o ∈ part, o ∈ objects)
    (hup : part.Pairwise fun o p => o.address + o.extent ≤ p.address) (rl : List BoundObject) :
    Walked constraints address maxResolutions part rl
      (ex.resolveAbove constraints address maxResolutions late part rl).2
      (ex.resolveAbove constraints address maxResolutions late part rl).1 := by
  induction part generalizing rl with
  | nil => exact .stop fun o ho => absurd ho List.not_mem_nil
  | cons o part ih =>
    obtain ⟨ho, hpart⟩ := List.forall_mem_cons.mp hpart
    obtain ⟨habove, hup⟩ := List.pairwise_cons.mp hup
    rw [resolveAbove]
    split
    next => exact .giveUp
    next =>
      cases hbefore : ex.mustBeBefore constraints address o with
      | none => exact .giveUp
      | some before =>
        cases before with
        | true => exact .stop (not_feasible_above hsolver hlayout htyped hwidth ho hbefore habove)
        | false =>
          have hkept := keepResolution_kept maxResolutions hsolver hlayout htyped
            hwidth ho rl
          dsimp only
          cases hkeep : ex.keepResolution constraints address maxResolutions o rl with
          | mk res rl₁ =>
            rw [hkeep] at hkept
            cases res with
            | some incomplete => exact hkept.walked.returns
            | none => exact hkept.walked.append (ih hpart hup rl₁)

end Truthful

/-! ### Constants -/

variable {state : MemoryState} {o : BoundObject}

/-- `resolveOne` of a constant finds the object that the address is in. -/
theorem resolveOneConstant_eq_some (hlayout : Layout ex.pointerWidth objects)
    (hobjects : state.objects = objects) {a : BitVec 64} :
    state.resolveOneConstant a = some o ↔ o ∈ objects ∧ o.Near a.toNat := by
  subst hobjects
  have hdistance : ∀ p : BoundObject, p.address ≤ a.toNat →
      ((p.mo.size = 0 ∧ a = p.mo.address ∨ (a - p.mo.address).toNat < p.mo.size.toNat)
        ↔ a.toNat < p.address + p.extent) := by
    intro p hle
    have hsub : (a - p.mo.address).toNat = a.toNat - p.address := BitVec.toNat_sub_of_le hle
    have hsize : p.mo.size = 0 ↔ p.mo.size.toNat = 0 := BitVec.toNat_inj.symm
    have hsame : a = p.mo.address ↔ a.toNat = p.address := BitVec.toNat_inj.symm
    rw [hsub, hsize, hsame, BoundObject.extent]
    omega
  have hprevious := fun p => KeyedList.previous_eq_some hlayout.sorted (k := a.toNat) (v := p)
  rw [MemoryState.resolveOneConstant]
  constructor
  · intro h
    split at h
    next => exact absurd h (by simp)
    next p hp =>
      obtain ⟨hcond, heq⟩ := Option.ite_none_right_eq_some.mp h
      obtain rfl := Option.some.inj heq
      obtain ⟨hmem, hle, -⟩ := (hprevious p).mp hp
      exact ⟨hmem, hle, (hdistance p hle).mp hcond⟩
  · rintro ⟨hmem, hle, hlt⟩
    have ho : KeyedList.previous BoundObject.address a.toNat state.objects = some o := by
      refine (hprevious o).mpr ⟨hmem, hle, fun p hp hpa => ?_⟩
      -- an object that starts later would start within this one
      rcases Layout.cases hlayout.apart hmem hp with rfl | hop | hpo
      · exact le_rfl
      · omega
      · omega
    rw [ho]
    exact if_pos ((hdistance o hle).mpr hlt)

/-- The address of a constant, as 64 bits. -/
theorem toNat_ofNat_64 {CE : APInt} (hw : CE.width ≤ 64) :
    (BitVec.ofNat 64 CE.toNat).toNat = CE.toNat := by
  have hlt : CE.toNat < 2 ^ CE.width := CE.bits.isLt
  have hpow : 2 ^ CE.width ≤ 2 ^ 64 := Nat.pow_le_pow_right (by decide) hw
  exact Nat.mod_eq_of_lt (Nat.lt_of_lt_of_le hlt hpow)

/-! ### Both loops -/

/-- The objects of the two loops. -/
theorem mem_below_or_above (state : MemoryState) (a : BitVec 64) :
    o ∈ state.objects ↔ o ∈ state.below a ∨ o ∈ state.above a := by
  rw [MemoryState.below, MemoryState.above, List.mem_reverse, List.mem_filter, List.mem_filter,
    decide_eq_true_iff, decide_eq_true_iff]
  constructor
  · intro ho
    exact (le_or_gt o.address a.toNat).imp (⟨ho, ·⟩) (⟨ho, ·⟩)
  · intro ho
    exact ho.elim And.left And.left

theorem below_apart (hlayout : Layout ex.pointerWidth objects) (hobjects : state.objects = objects)
    (a : BitVec 64) :
    (state.below a).Pairwise fun o p => p.address + p.extent ≤ o.address := by
  rw [MemoryState.below, List.pairwise_reverse, hobjects]
  exact hlayout.apart.filter _

theorem above_apart (hlayout : Layout ex.pointerWidth objects) (hobjects : state.objects = objects)
    (a : BitVec 64) :
    (state.above a).Pairwise fun o p => o.address + o.extent ≤ p.address := by
  rw [MemoryState.above, hobjects]
  exact hlayout.apart.filter _

/-- The loops come to no object twice. -/
theorem walk_nodup (hlayout : Layout ex.pointerWidth objects) (hobjects : state.objects = objects)
    (a : BitVec 64) :
    (state.below a ++ state.above a).Nodup := by
  have hextent : ∀ o : BoundObject, 1 ≤ o.extent := fun o => le_max_right _ _
  refine List.nodup_append.mpr ⟨?_, ?_, ?_⟩
  · refine (below_apart hlayout hobjects a).imp fun {o p} hpo heq => ?_
    have hone := hextent p
    rw [heq] at hpo
    omega
  · refine (above_apart hlayout hobjects a).imp fun {o p} hop heq => ?_
    have hone := hextent o
    rw [heq] at hop hone
    omega
  · intro o ho p hp heq
    rw [MemoryState.below, List.mem_reverse, List.mem_filter, decide_eq_true_iff] at ho
    rw [MemoryState.above, List.mem_filter, decide_eq_true_iff] at hp
    have hle := ho.2
    have hlt := hp.2
    rw [heq] at hle
    omega

section Truthful

variable (maxResolutions late) (hsolver : ex.solver.Truthful constraints) (hlayout : Layout ex.pointerWidth objects)
  (htyped : address.WellTyped) (hwidth : address.width = ex.pointerWidth) {state : MemoryState}
  (hobjects : state.objects = objects) (hconstraints : state.constraints = constraints)

include hsolver hlayout htyped hwidth hobjects hconstraints

/-- What a call of `resolve` returns: feasible objects, none of them twice; all of them, when
it says that it is complete; and from two on no more than it was asked for. -/
structure Resolved (constraints : List Expr) (objects : List BoundObject) (address : Expr)
    (maxResolutions : ℕ) (incomplete : Bool) (rl : List BoundObject) : Prop where
  nodup : rl.Nodup
  sound : ∀ o ∈ rl, o ∈ objects ∧ Feasible constraints address o
  complete : incomplete = false → ∀ o ∈ objects, Feasible constraints address o → o ∈ rl
  bounded : 2 ≤ maxResolutions → rl.length ≤ maxResolutions

theorem resolve_resolved :
    Resolved constraints objects address maxResolutions
      (ex.resolve state address maxResolutions late).1
      (ex.resolve state address maxResolutions late).2 := by
  subst hconstraints
  unfold resolve
  split
  next CE =>
    have hw : CE.width ≤ 64 := le_of_eq_of_le hwidth hlayout.width.2
    have hconstant : ∀ o, o ∈ (state.resolveOneConstant (BitVec.ofNat 64 CE.toNat)).toList
        ↔ o ∈ objects ∧ o.Near CE.toNat := by
      intro o
      rw [Option.mem_toList, resolveOneConstant_eq_some hlayout hobjects,
        toNat_ofNat_64 hw]
    obtain ⟨σ, hσ⟩ := hsolver.satisfiable
    refine ⟨?_, fun o ho => ?_, fun _ o ho hfeasible => ?_, fun htwo => ?_⟩
    · cases state.resolveOneConstant (BitVec.ofNat 64 CE.toNat) with
      | none => exact List.nodup_nil
      | some o => exact List.nodup_singleton o
    · obtain ⟨hmem, hnear⟩ := (hconstant o).mp ho
      exact ⟨hmem, σ, hσ, hnear⟩
    · obtain ⟨τ, -, hnear⟩ := hfeasible
      exact (hconstant o).mpr ⟨ho, hnear⟩
    · refine le_trans ?_ htwo
      cases state.resolveOneConstant (BitVec.ofNat 64 CE.toNat) with
      | none => exact Nat.zero_le _
      | some o => exact Nat.one_le_ofNat
  next =>
    cases hcex : ex.solver.getValue state.constraints address with
    | none =>
      exact ⟨List.nodup_nil, fun o ho => absurd ho List.not_mem_nil, fun h => absurd h (by simp),
        fun _ => Nat.zero_le _⟩
    | some cex =>
      dsimp only
      generalize BitVec.ofNat 64 cex.toNat = a
      have hbelow : ∀ o ∈ state.below a, o ∈ objects := fun o ho =>
        hobjects ▸ (mem_below_or_above state a).mpr (.inl ho)
      have habove : ∀ o ∈ state.above a, o ∈ objects := fun o ho =>
        hobjects ▸ (mem_below_or_above state a).mpr (.inr ho)
      have hfirst := resolveBelow_walked maxResolutions late hsolver
        hlayout htyped hwidth hbelow (below_apart hlayout hobjects a) []
      have hsecond := fun rl => resolveAbove_walked maxResolutions late
        hsolver hlayout htyped hwidth habove (above_apart hlayout hobjects a) rl
      -- what both loops together have kept
      have hall : ∀ {res : Option Bool} {rl : List BoundObject},
          Walked state.constraints address maxResolutions (state.below a ++ state.above a) [] rl res →
          Resolved state.constraints objects address maxResolutions (res.getD false) rl := by
        intro res rl hwalked
        obtain ⟨l, hl, hsub, hfeasible⟩ := hwalked.appends
        rw [List.nil_append] at hl
        subst hl
        have hmem : ∀ o ∈ rl, o ∈ objects := fun o ho =>
          hobjects ▸ (mem_below_or_above state a).mpr (List.mem_append.mp (hsub.subset ho))
        refine ⟨(walk_nodup hlayout hobjects a).sublist hsub, fun o ho => ⟨hmem o ho, hfeasible o ho⟩,
          fun hres o ho hf => ?_, fun htwo => (hwalked.bounded htwo (Nat.lt_of_lt_of_le Nat.two_pos htwo)).1⟩
        cases res with
        | none =>
          exact hwalked.complete rfl o
            (List.mem_append.mpr ((mem_below_or_above state a).mp (hobjects ▸ ho))) hf
        | some incomplete =>
          -- an object that the address is always in is the only one
          obtain ⟨p, hp, halways⟩ := hwalked.always (congrArg some hres)
          obtain ⟨σ, hσ, hnear⟩ := hf
          rw [hlayout.unique ho (hmem p hp) hnear (halways σ hσ)]
          exact hp
      cases hres : ex.resolveBelow state.constraints address maxResolutions late (state.below a) [] with
      | mk res rl =>
        rw [hres] at hfirst
        cases res with
        | some incomplete => exact hall hfirst.returns
        | none =>
          dsimp only
          have hsecond := hsecond rl
          cases hres' : ex.resolveAbove state.constraints address maxResolutions late
              (state.above a) rl with
          | mk res' rl' =>
            rw [hres'] at hsecond
            have hboth := hall (hfirst.append hsecond)
            cases res' with
            | some incomplete => exact hboth
            | none => exact hboth

end Truthful

/-! ### A solver that answers -/

section Reliable

variable (hsolver : ex.solver.Reliable constraints) (hlayout : Layout ex.pointerWidth objects)
  (htyped : address.WellTyped) (hwidth : address.width = ex.pointerWidth)

include hsolver hlayout htyped hwidth

variable {o : BoundObject} {part : List BoundObject}

theorem mayBeIn_answered (ho : o ∈ objects) :
    ∃ b, ex.solver.mayBeTrue constraints (o.mo.getBoundsCheckPointer ex.pointerWidth address)
      = some b := by
  obtain ⟨b, hb, -⟩ := hsolver.mayBeTrue (boundsCheck_bool hlayout htyped hwidth ho)
  exact ⟨b, hb⟩

theorem mustBeBehind_answered (ho : o ∈ objects) :
    ∃ b, ex.mustBeBehind constraints address o = some b := by
  obtain ⟨b, hb, -⟩ := hsolver.mustBeTrue
    (MemoryObject.behind_denotes hlayout ho htyped hwidth fun _ _ => 0).1
  exact ⟨b, hb⟩

theorem mustBeBefore_answered (ho : o ∈ objects) :
    ∃ b, ex.mustBeBefore constraints address o = some b := by
  obtain ⟨b, hb, -⟩ := hsolver.mustBeTrue
    (MemoryObject.before_denotes hlayout ho htyped hwidth fun _ _ => 0).1
  exact ⟨b, hb⟩

/-- A limit of one is as good as none: the first resolution is not held against it. -/
theorem keepResolution_answered (hlimit : maxResolutions ≤ 1) (ho : o ∈ objects)
    (rl : List BoundObject) :
    (ex.keepResolution constraints address maxResolutions o rl).1 ≠ some true := by
  obtain ⟨may, hmay, -⟩ := hsolver.mayBeTrue (boundsCheck_bool hlayout htyped hwidth ho)
  obtain ⟨must, hmust, -⟩ := hsolver.mustBeTrue (boundsCheck_bool hlayout htyped hwidth ho)
  rw [keepResolution]
  dsimp only
  rw [hmay]
  cases may with
  | false => simp
  | true =>
    dsimp only
    split
    next =>
      rw [hmust]
      cases must <;> simp
    next hone =>
      have hpos : (rl ++ [o]).length = rl.length + 1 := by simp
      rw [if_neg (by omega)]
      simp

theorem resolveBelow_answered (hlimit : maxResolutions ≤ 1) (hpart : ∀ o ∈ part, o ∈ objects)
    (rl : List BoundObject) :
    (ex.resolveBelow constraints address maxResolutions (fun _ => false) part rl).1 ≠ some true := by
  induction part generalizing rl with
  | nil => exact fun h => absurd h (by simp [resolveBelow])
  | cons o part ih =>
    obtain ⟨ho, hpart⟩ := List.forall_mem_cons.mp hpart
    have hkept := keepResolution_answered hsolver hlayout htyped hwidth hlimit ho rl
    obtain ⟨behind, hbehind⟩ := mustBeBehind_answered hsolver hlayout htyped hwidth ho
    rw [resolveBelow, if_neg (by simp), hbehind]
    cases hkeep : ex.keepResolution constraints address maxResolutions o rl with
    | mk res rl₁ =>
      rw [hkeep] at hkept
      cases res with
      | some incomplete => exact hkept
      | none =>
        cases behind with
        | true => simp
        | false => exact ih hpart rl₁

theorem resolveAbove_answered (hlimit : maxResolutions ≤ 1) (hpart : ∀ o ∈ part, o ∈ objects)
    (rl : List BoundObject) :
    (ex.resolveAbove constraints address maxResolutions (fun _ => false) part rl).1 ≠ some true := by
  induction part generalizing rl with
  | nil => exact fun h => absurd h (by simp [resolveAbove])
  | cons o part ih =>
    obtain ⟨ho, hpart⟩ := List.forall_mem_cons.mp hpart
    have hkept := keepResolution_answered hsolver hlayout htyped hwidth hlimit ho rl
    obtain ⟨before, hbefore⟩ := mustBeBefore_answered hsolver hlayout htyped hwidth ho
    rw [resolveAbove, if_neg (by simp), hbefore]
    cases before with
    | true => simp
    | false =>
      dsimp only
      cases hkeep : ex.keepResolution constraints address maxResolutions o rl with
      | mk res rl₁ =>
        rw [hkeep] at hkept
        cases res with
        | some incomplete => exact hkept
        | none => exact ih hpart rl₁

variable {state : MemoryState} (hobjects : state.objects = objects)
  (hconstraints : state.constraints = constraints)

include hobjects hconstraints

/-- When the queries are answered in time, and without a limit or with a limit of one, the
resolution is complete. -/
theorem resolve_answered (hlimit : maxResolutions ≤ 1) :
    (ex.resolve state address maxResolutions fun _ => false).1 = false := by
  subst hconstraints
  unfold resolve
  split
  next => rfl
  next =>
    obtain ⟨cex, -, hcex, -, -⟩ := hsolver.getValue htyped
    rw [hcex]
    dsimp only
    generalize BitVec.ofNat 64 cex.toNat = a
    have hfirst := resolveBelow_answered hsolver hlayout htyped hwidth hlimit
      (fun o ho => hobjects ▸ (mem_below_or_above state a).mpr (.inl ho)) []
    have hsecond := fun rl => resolveAbove_answered hsolver hlayout htyped hwidth hlimit
      (fun o ho => hobjects ▸ (mem_below_or_above state a).mpr (.inr ho)) rl
    cases hres : ex.resolveBelow state.constraints address maxResolutions (fun _ => false)
        (state.below a) [] with
    | mk res rl =>
      rw [hres] at hfirst
      cases res with
      | some incomplete => exact Bool.eq_false_of_not_eq_true fun h => hfirst (congrArg some h)
      | none =>
        dsimp only
        have hsecond := hsecond rl
        cases hres' : ex.resolveAbove state.constraints address maxResolutions (fun _ => false)
            (state.above a) rl with
        | mk res' rl' =>
          rw [hres'] at hsecond
          cases res' with
          | some incomplete => exact Bool.eq_false_of_not_eq_true fun h => hsecond (congrArg some h)
          | none => rfl

/-- So `resolve` finds every object in which the address may be. -/
theorem resolve_complete :
    (ex.resolve state address 0 fun _ => false).1 = false
      ∧ (∀ o ∈ (ex.resolve state address 0 fun _ => false).2, o ∈ objects)
      ∧ ∀ σ, Satisfies σ constraints → ∀ o ∈ objects, o.Near (ObjectState.address σ address) →
        o ∈ (ex.resolve state address 0 fun _ => false).2 := by
  have hcomplete := resolve_answered hsolver hlayout htyped hwidth hobjects hconstraints
    (Nat.zero_le 1)
  have hresolved := resolve_resolved 0 (fun _ => false)
    hsolver.toTruthful hlayout htyped hwidth hobjects hconstraints
  refine ⟨hcomplete, fun o ho => (hresolved.sound o ho).1, fun σ hσ o ho hnear => ?_⟩
  exact hresolved.complete hcomplete o ho ⟨σ, hσ, hnear⟩

/-! ### `resolveOne` -/

omit hobjects hconstraints

/-- What a loop of `resolveOne` over `part` finds. -/
structure FoundIn (constraints : List Expr) (address : Expr) (part : List BoundObject)
    (found : Option BoundObject) : Prop where
  sound : ∀ o ∈ found, o ∈ part ∧ Feasible constraints address o
  complete : found = none → ∀ o ∈ part, ¬Feasible constraints address o

omit hsolver hlayout htyped hwidth in
theorem FoundIn.cons {found : Option BoundObject} (hnot : ¬Feasible constraints address o)
    (h : FoundIn constraints address part found) :
    FoundIn constraints address (o :: part) found where
  sound p hp := ⟨List.mem_cons_of_mem o (h.sound p hp).1, (h.sound p hp).2⟩
  complete hnone := List.forall_mem_cons.mpr ⟨hnot, h.complete hnone⟩

omit hsolver hlayout htyped hwidth in
theorem FoundIn.here (hfeasible : Feasible constraints address o) :
    FoundIn constraints address (o :: part) (some o) where
  sound p hp := by
    obtain rfl := Option.some.inj hp
    exact ⟨List.mem_cons_self, hfeasible⟩
  complete h := absurd h (by simp)

omit hsolver hlayout htyped hwidth in
theorem FoundIn.nowhere (hnot : ∀ o ∈ part, ¬Feasible constraints address o) :
    FoundIn constraints address part none where
  sound p hp := absurd hp (by simp)
  complete _ := hnot

theorem resolveOneBelow_found (hpart : ∀ o ∈ part, o ∈ objects)
    (hdown : part.Pairwise fun o p => p.address + p.extent ≤ o.address) :
    ∃ found, ex.resolveOneBelow constraints address part = some found
      ∧ FoundIn constraints address part found := by
  induction part with
  | nil => exact ⟨none, rfl, .nowhere fun o ho => absurd ho List.not_mem_nil⟩
  | cons o part ih =>
    obtain ⟨ho, hpart⟩ := List.forall_mem_cons.mp hpart
    obtain ⟨hbelow, hdown⟩ := List.pairwise_cons.mp hdown
    obtain ⟨may, hmay⟩ := mayBeIn_answered hsolver hlayout htyped hwidth ho
    have hfeasible := mayBeIn hsolver.toTruthful hlayout htyped hwidth ho hmay
    obtain ⟨must, hmust⟩ := mustBeBehind_answered hsolver hlayout htyped hwidth ho
    rw [resolveOneBelow]
    simp only [bind, Option.bind_some, hmay]
    cases may with
    | true => exact ⟨some o, rfl, .here (hfeasible.mp rfl)⟩
    | false =>
      have hnot : ¬Feasible constraints address o := fun hf => absurd (hfeasible.mpr hf) (by simp)
      simp only [Bool.false_eq_true, if_false, hmust, Option.bind_some]
      cases must with
      | true =>
        refine ⟨none, rfl, .cons hnot (.nowhere ?_)⟩
        exact not_feasible_below hsolver.toTruthful hlayout htyped hwidth ho hmust hbelow
      | false =>
        obtain ⟨found, hfound, hin⟩ := ih hpart hdown
        exact ⟨found, hfound, hin.cons hnot⟩

theorem resolveOneAbove_found (hpart : ∀ o ∈ part, o ∈ objects)
    (hup : part.Pairwise fun o p => o.address + o.extent ≤ p.address) :
    ∃ found, ex.resolveOneAbove constraints address part = some found
      ∧ FoundIn constraints address part found := by
  induction part with
  | nil => exact ⟨none, rfl, .nowhere fun o ho => absurd ho List.not_mem_nil⟩
  | cons o part ih =>
    obtain ⟨ho, hpart⟩ := List.forall_mem_cons.mp hpart
    obtain ⟨habove, hup⟩ := List.pairwise_cons.mp hup
    obtain ⟨may, hmay⟩ := mayBeIn_answered hsolver hlayout htyped hwidth ho
    have hfeasible := mayBeIn hsolver.toTruthful hlayout htyped hwidth ho hmay
    obtain ⟨must, hmust⟩ := mustBeBefore_answered hsolver hlayout htyped hwidth ho
    rw [resolveOneAbove, hmust]
    cases must with
    | true =>
      refine ⟨none, rfl, .nowhere ?_⟩
      exact not_feasible_above hsolver.toTruthful hlayout htyped hwidth ho hmust habove
    | false =>
      simp only [bind, Option.bind_some, Bool.false_eq_true, if_false, hmay]
      cases may with
      | true => exact ⟨some o, rfl, .here (hfeasible.mp rfl)⟩
      | false =>
        obtain ⟨found, hfound, hin⟩ := ih hpart hup
        exact ⟨found, hfound, hin.cons fun hf => absurd (hfeasible.mpr hf) (by simp)⟩

include hobjects hconstraints

/-- `resolveOne` does not fail, and finds a feasible object if there is one. -/
theorem resolveOne_found :
    ∃ found, ex.resolveOne state address = some found
      ∧ FoundIn constraints address objects found := by
  subst hconstraints
  unfold resolveOne
  split
  next CE =>
    have hw : CE.width ≤ 64 := le_of_eq_of_le hwidth hlayout.width.2
    have hconstant : ∀ o, state.resolveOneConstant (BitVec.ofNat 64 CE.toNat) = some o
        ↔ o ∈ objects ∧ o.Near CE.toNat := by
      intro o
      rw [resolveOneConstant_eq_some hlayout hobjects, toNat_ofNat_64 hw]
    obtain ⟨σ, hσ⟩ := hsolver.satisfiable
    refine ⟨_, rfl, fun o ho => ?_, fun hnone o ho hfeasible => ?_⟩
    · obtain ⟨hmem, hnear⟩ := (hconstant o).mp ho
      exact ⟨hmem, σ, hσ, hnear⟩
    · obtain ⟨τ, -, hnear⟩ := hfeasible
      exact absurd (hnone.symm.trans ((hconstant o).mpr ⟨ho, hnear⟩)) (by simp)
  next =>
    obtain ⟨cex, σ₀, hcex, hσ₀, heval⟩ := hsolver.getValue htyped
    have hexample : (BitVec.ofNat 64 cex.toNat).toNat = ObjectState.address σ₀ address := by
      have hw : cex.width ≤ 64 := by
        rw [heval, htyped.eval_width, hwidth]
        exact hlayout.width.2
      rw [toNat_ofNat_64 hw, heval]
      rfl
    rw [hcex]
    simp only [bind, Option.bind_some]
    generalize BitVec.ofNat 64 cex.toNat = a at hexample
    split
    next o ho =>
      -- the example address is in the object
      obtain ⟨hprevious, hlt⟩ := Option.filter_eq_some_iff.mp ho
      rw [hobjects] at hprevious
      obtain ⟨hmem, hle, -⟩ := (KeyedList.previous_eq_some hlayout.sorted).mp hprevious
      have hsub : (a - o.mo.address).toNat = a.toNat - o.address := BitVec.toNat_sub_of_le hle
      have hdistance : a.toNat - o.address < o.mo.size.toNat := by
        rw [← hsub]
        exact of_decide_eq_true hlt
      have hextent : o.mo.size.toNat ≤ o.extent := le_max_left _ _
      refine ⟨some o, rfl, fun p hp => ?_, fun h => absurd h (by simp)⟩
      obtain rfl := Option.some.inj hp
      refine ⟨hmem, σ₀, hσ₀, ?_⟩
      rw [← hexample]
      exact ⟨hle, by omega⟩
    next =>
      obtain ⟨found, hfound, hin⟩ := resolveOneBelow_found hsolver hlayout htyped hwidth
        (fun o ho => hobjects ▸ (mem_below_or_above state a).mpr (.inl ho))
        (below_apart hlayout hobjects a)
      rw [hfound]
      cases found with
      | some o =>
        refine ⟨some o, rfl, fun p hp => ?_, fun h => absurd h (by simp)⟩
        obtain ⟨hmem, hfeasible⟩ := hin.sound p hp
        exact ⟨hobjects ▸ (mem_below_or_above state a).mpr (.inl hmem), hfeasible⟩
      | none =>
        obtain ⟨found', hfound', hin'⟩ := resolveOneAbove_found hsolver hlayout htyped hwidth
          (fun o ho => hobjects ▸ (mem_below_or_above state a).mpr (.inr ho))
          (above_apart hlayout hobjects a)
        refine ⟨found', hfound', fun p hp => ?_, fun hnone o ho => ?_⟩
        · obtain ⟨hmem, hfeasible⟩ := hin'.sound p hp
          exact ⟨hobjects ▸ (mem_below_or_above state a).mpr (.inr hmem), hfeasible⟩
        · rcases (mem_below_or_above state a).mp (hobjects ▸ ho) with ho | ho
          · exact hin.complete rfl o ho
          · exact hin'.complete hnone o ho

end Reliable

end Resolve

/-! ## The contract -/

/-- A list of resolutions has no more entries than it was asked for, and the result says
whether a feasible object is missing. -/
def HonoursLimit (constraints : List Expr) (objects : List BoundObject) (address : Expr)
    (maxResolutions : ℕ) (result : Bool × List BoundObject) : Prop :=
  result.2.length ≤ maxResolutions
    ∧ ((∃ o ∈ objects, Feasible constraints address o ∧ o ∉ result.2) → result.1 = true)

section Contract

variable {ex : MemoryExecutor} {state : MemoryState} {address : Expr}

/-- `resolve` lists each object in which the address may be exactly once and no other one, and
`resolveOne` finds one of them if there is any; of a constant, the one that it is in. -/
theorem resolve_exact (hsolver : ex.solver.Reliable state.constraints)
    (hlayout : Layout ex.pointerWidth state.objects) (htyped : address.WellTyped)
    (hwidth : address.width = ex.pointerWidth) :
    (ex.resolve state address 0 fun _ => false).1 = false
      ∧ (ex.resolve state address 0 fun _ => false).2.Nodup
      ∧ (∀ o, o ∈ (ex.resolve state address 0 fun _ => false).2
        ↔ o ∈ state.objects ∧ Feasible state.constraints address o)
      ∧ ∃ found, ex.resolveOne state address = some found
        ∧ (found.isSome = true ↔ (ex.resolve state address 0 fun _ => false).2 ≠ [])
        ∧ (∀ o ∈ found, o ∈ (ex.resolve state address 0 fun _ => false).2)
        ∧ ∀ CE, address = .Constant CE →
          ∀ o, found = some o ↔ o ∈ state.objects ∧ o.Near CE.toNat := by
  have hcomplete := resolve_answered hsolver hlayout htyped hwidth rfl rfl (Nat.zero_le 1)
  have hresolved := resolve_resolved 0 (fun _ => false)
    hsolver.toTruthful hlayout htyped hwidth rfl rfl
  have hmem : ∀ o, o ∈ (ex.resolve state address 0 fun _ => false).2
      ↔ o ∈ state.objects ∧ Feasible state.constraints address o := fun o =>
    ⟨hresolved.sound o, fun ho => hresolved.complete hcomplete o ho.1 ho.2⟩
  obtain ⟨found, hfound, hin⟩ := resolveOne_found hsolver hlayout htyped hwidth rfl rfl
  refine ⟨hcomplete, hresolved.nodup, hmem, found, hfound, ⟨fun hsome hnil => ?_, fun hne => ?_⟩,
    fun o ho => (hmem o).mpr (hin.sound o ho), fun CE hCE o => ?_⟩
  · obtain ⟨o, ho⟩ := Option.isSome_iff_exists.mp hsome
    have ho' := (hmem o).mpr (hin.sound o ho)
    rw [hnil] at ho'
    exact absurd ho' List.not_mem_nil
  · rw [Option.isSome_iff_ne_none]
    intro hnone
    obtain ⟨o, ho⟩ := List.exists_mem_of_ne_nil _ hne
    obtain ⟨ho', hfeasible⟩ := (hmem o).mp ho
    exact hin.complete hnone o ho' hfeasible
  · subst hCE
    have hw : CE.width ≤ 64 := le_of_eq_of_le hwidth hlayout.width.2
    obtain rfl := Option.some.inj hfound
    rw [resolveOneConstant_eq_some hlayout rfl, toNat_ofNat_64 hw]

/-- `resolve` honours a limit of two or more. A limit of one it honours if the address may be
in one object at most; and when every query is answered in time, only then. -/
theorem resolve_honoursLimit (hsolver : ex.solver.Truthful state.constraints)
    (hlayout : Layout ex.pointerWidth state.objects) (htyped : address.WellTyped)
    (hwidth : address.width = ex.pointerWidth) {maxResolutions : ℕ} (hpos : 0 < maxResolutions)
    (late : BoundObject → Bool) :
    ((maxResolutions = 1 → ∀ o ∈ state.objects, ∀ p ∈ state.objects,
        Feasible state.constraints address o → Feasible state.constraints address p → o = p) →
      HonoursLimit state.constraints state.objects address maxResolutions
        (ex.resolve state address maxResolutions late))
      ∧ (ex.solver.solver.Answers → (∀ o, late o = false) →
        (HonoursLimit state.constraints state.objects address maxResolutions
            (ex.resolve state address maxResolutions late)
          ↔ (maxResolutions = 1 → ∀ o ∈ state.objects, ∀ p ∈ state.objects,
            Feasible state.constraints address o → Feasible state.constraints address p →
              o = p))) := by
  have hresolved := resolve_resolved maxResolutions late hsolver
    hlayout htyped hwidth rfl rfl
  have henough : (maxResolutions = 1 → ∀ o ∈ state.objects, ∀ p ∈ state.objects,
      Feasible state.constraints address o → Feasible state.constraints address p → o = p) →
      HonoursLimit state.constraints state.objects address maxResolutions
        (ex.resolve state address maxResolutions late) := by
    intro hone
    refine ⟨?_, fun hmissing => ?_⟩
    · rcases Nat.lt_or_ge 1 maxResolutions with htwo | hle
      · exact hresolved.bounded htwo
      · have honly := hone (Nat.le_antisymm hle hpos)
        generalize (ex.resolve state address maxResolutions late).2 = rl at hresolved
        match rl, hresolved with
        | [], _ => exact Nat.zero_le _
        | [o], _ => exact hpos
        | o :: p :: rl, hresolved =>
          obtain ⟨ho, hfo⟩ := hresolved.sound o List.mem_cons_self
          obtain ⟨hp, hfp⟩ := hresolved.sound p (List.mem_cons_of_mem o List.mem_cons_self)
          have hnodup := (List.nodup_cons.mp hresolved.nodup).1
          rw [honly o ho p hp hfo hfp] at hnodup
          exact absurd List.mem_cons_self hnodup
    · obtain ⟨o, ho, hfeasible, hnot⟩ := hmissing
      refine Bool.eq_true_of_not_eq_false fun hcomplete => hnot ?_
      exact hresolved.complete hcomplete o ho hfeasible
  refine ⟨henough, fun hanswers hlate => ⟨fun hhonours hone o ho p hp hfo hfp => ?_, henough⟩⟩
  -- with a limit of one the resolution is complete, so that both objects are in the list
  obtain rfl : late = fun _ => false := funext hlate
  subst hone
  have hcomplete := resolve_answered ⟨hsolver, hanswers⟩ hlayout htyped hwidth rfl rfl
    (le_refl 1)
  have ho' := hresolved.complete hcomplete o ho hfo
  have hp' := hresolved.complete hcomplete p hp hfp
  have hlength := hhonours.1
  generalize (ex.resolve state address 1 fun _ => false).2 = rl at ho' hp' hlength
  match rl, hlength with
  | [], _ => exact absurd ho' List.not_mem_nil
  | [q], _ => rw [List.mem_singleton.mp ho', List.mem_singleton.mp hp']

end Contract

/-! ### Two objects -/

/-- A pointer that is read from the input. -/
def inputPointer : Expr :=
  .Binary .Add (.Constant ⟨64, 4096⟩)
    (.Cast .ZExt (.Read (.root (.symbolic 0 "x" 1)) (.Constant ⟨32, 0⟩)) 64)

/-- An object of 8 zeros. -/
def zeroObject (id : ℕ) (address : BitVec 64) : BoundObject :=
  ⟨⟨id, address, 8, false⟩, ObjectState.ofConcrete 8 (by decide) none id, false⟩

/-- A state with two objects, one behind the other. -/
def twoObjects : MemoryState := { emptyState [] with objects := [zeroObject 1 4096, zeroObject 2 4104] }

theorem layout_twoObjects : Layout 64 twoObjects.objects where
  width := by decide
  apart := by
    refine List.pairwise_pair.mpr ?_
    decide
  fits := by
    intro o ho
    rcases List.mem_cons.mp ho with rfl | ho
    · decide
    · rw [List.mem_singleton.mp ho]
      decide

theorem reliable_exact {constraints : List Expr} (hsat : ∃ σ, Satisfies σ constraints)
    (hcs : ∀ c ∈ constraints, c.IsBool) :
    (plainMemoryExecutor exactSolver).solver.Reliable constraints :=
  ⟨⟨exactSolver_correct, hsat, hcs⟩, exactSolver_answers⟩

theorem reliable_twoObjects :
    (plainMemoryExecutor exactSolver).solver.Reliable twoObjects.constraints :=
  reliable_exact ⟨fun _ _ => 0, fun _ hc => absurd hc List.not_mem_nil⟩
    fun _ hc => absurd hc List.not_mem_nil

/-- The pointer may be in both. -/
theorem feasible_twoObjects :
    Feasible twoObjects.constraints inputPointer (zeroObject 1 4096)
      ∧ Feasible twoObjects.constraints inputPointer (zeroObject 2 4104) := by
  refine ⟨⟨fun _ _ => 0, fun _ hc => absurd hc List.not_mem_nil, ?_⟩,
    ⟨fun _ _ => 8, fun _ hc => absurd hc List.not_mem_nil, ?_⟩⟩
  · exact ⟨by decide, by decide⟩
  · exact ⟨by decide, by decide⟩

theorem resolve_exact_twoObjects :
    ((plainMemoryExecutor exactSolver).resolve twoObjects inputPointer 0 fun _ => false).1 = false
      ∧ ∃ found, (plainMemoryExecutor exactSolver).resolveOne twoObjects inputPointer
        = some (some found) := by
  obtain ⟨hcomplete, -, hmem, found, hfound, hsome, -⟩ := @resolve_exact
    (plainMemoryExecutor exactSolver) twoObjects inputPointer reliable_twoObjects layout_twoObjects
    (by decide) rfl
  refine ⟨hcomplete, ?_⟩
  have hin := (hmem (zeroObject 1 4096)).mpr ⟨List.mem_cons_self, feasible_twoObjects.1⟩
  obtain ⟨o, rfl⟩ := Option.isSome_iff_exists.mp (hsome.mpr (List.ne_nil_of_mem hin))
  exact ⟨o, hfound⟩

/-- Asked for one resolution, `resolve` lists both objects. -/
theorem resolve_exceeds_one :
    ¬HonoursLimit twoObjects.constraints twoObjects.objects inputPointer 1
      ((plainMemoryExecutor exactSolver).resolve twoObjects inputPointer 1 fun _ => false) := by
  intro hhonours
  have hcomplete := resolve_answered reliable_twoObjects layout_twoObjects
    (by decide : inputPointer.WellTyped) rfl rfl rfl (le_refl 1)
  have hresolved := resolve_resolved 1 (fun _ => false) reliable_twoObjects.toTruthful
    layout_twoObjects (by decide : inputPointer.WellTyped) rfl rfl rfl
  have hfirst := hresolved.complete hcomplete _ List.mem_cons_self feasible_twoObjects.1
  have hsecond := hresolved.complete hcomplete _ (List.mem_cons_of_mem _ List.mem_cons_self)
    feasible_twoObjects.2
  have hlength := hhonours.1
  generalize ((plainMemoryExecutor exactSolver).resolve twoObjects inputPointer 1
    fun _ => false).2 = rl at hfirst hsecond hlength
  match rl, hlength with
  | [], _ => exact absurd hfirst List.not_mem_nil
  | [o], _ =>
    have hsame := (List.mem_singleton.mp hfirst).trans (List.mem_singleton.mp hsecond).symm
    exact absurd (congrArg BoundObject.address hsame) (by decide)

/-- A limit of two is honoured. -/
theorem resolve_honoursLimit_two :
    HonoursLimit twoObjects.constraints twoObjects.objects inputPointer 2
      ((plainMemoryExecutor exactSolver).resolve twoObjects inputPointer 2 fun _ => false) :=
  (@resolve_honoursLimit (plainMemoryExecutor exactSolver) twoObjects inputPointer
    reliable_twoObjects.toTruthful layout_twoObjects (by decide) rfl 2 Nat.two_pos
    fun _ => false).1 fun h => absurd h (by decide)

end MemoryExecutor

end Xklee
