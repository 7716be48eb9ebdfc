/-
What loads and stores rely on.

Under an assignment an address is a number, and it is within one object at most. A bounds
check holds exactly where the access is within its object.
-/
import Xklee.Core.MemoryOperation

set_option autoImplicit false

namespace Xklee

/-! ## Simplified expressions are canonical -/

variable {e : Expr} {v : ReplaceVisitor}

/-- The parts of a node whose kids have been replaced: replaced kids, and what is in its
update list. -/
theorem Expr.mem_parts_mapKids {k : Expr} {f : Expr → Expr} (hk : k ∈ (e.mapKids f).parts) :
    (∃ k' ∈ e.kids, k = f k') ∨ k ∈ e.parts := by
  cases e with
  | Constant c => exact absurd hk List.not_mem_nil
  | Read ul i =>
    rcases List.mem_cons.mp hk with rfl | hk
    · exact .inl ⟨i, List.mem_singleton_self i, rfl⟩
    · exact .inr (List.mem_cons_of_mem _ hk)
  | NotOptimized e | Not e | Extract e _ _ | Cast _ e _ =>
    exact .inl ⟨e, List.mem_singleton_self e, List.mem_singleton.mp hk⟩
  | Select c t f =>
    simp only [Expr.mapKids, Expr.parts, Expr.kids, List.mem_cons, List.not_mem_nil,
      or_false] at hk ⊢
    rcases hk with rfl | rfl | rfl
    · exact .inl ⟨c, .inl rfl, rfl⟩
    · exact .inl ⟨t, .inr (.inl rfl), rfl⟩
    · exact .inl ⟨f, .inr (.inr rfl), rfl⟩
  | Concat l r | Binary _ l r | Cmp _ l r =>
    simp only [Expr.mapKids, Expr.parts, Expr.kids, List.mem_cons, List.not_mem_nil,
      or_false] at hk ⊢
    rcases hk with rfl | rfl
    · exact .inl ⟨l, .inl rfl, rfl⟩
    · exact .inl ⟨r, .inr rfl, rfl⟩

/-- A visitor whose changes are canonical. -/
def ReplaceVisitor.KeepsCanonical (v : ReplaceVisitor) : Prop :=
  (∀ e d, v.visitExpr e = some d → d.Canonical) ∧ ∀ e d, v.visitExprPost e = some d → d.Canonical

theorem ReplaceVisitor.post_canonical (hv : v.KeepsCanonical) {e' : {e' // Lighter e e'}}
    (he' : e'.1.Canonical) : (v.post e').1.Canonical := by
  rw [ReplaceVisitor.post]
  split
  next => exact he'
  next =>
    split
    next d hd => exact hv.2 _ d hd
    next => exact he'

/-- Visiting keeps an expression canonical: it rebuilds what it changes. -/
theorem ReplaceVisitor.visit_canonical (hv : v.KeepsCanonical) (e : Expr) (he : e.Canonical) :
    (v.visit e).1.Canonical := by
  rw [ReplaceVisitor.visit]
  split
  next => exact he
  next =>
    split
    next d hd => exact hv.1 e d hd
    next =>
      have hrebuilt : (e.mapKidsMem (fun k _ => (v.visit k).1)).rebuild.Canonical := by
        rw [Expr.mapKidsMem_eq]
        refine Expr.rebuild_canonical _ fun k hk => ?_
        rcases Expr.mem_parts_mapKids hk with ⟨k', hk', rfl⟩ | hk
        · exact ReplaceVisitor.visit_canonical hv k' (he.part (e.kids_subset_parts hk'))
        · exact he.part hk
      dsimp only
      split
      next => exact ReplaceVisitor.post_canonical hv he
      next hne =>
        have hlt := Expr.rebuild_mapKidsMem_lt (fun k hk => (v.visit k).2) hne
        split
        next =>
          have h := ReplaceVisitor.visit_canonical hv _ hrebuilt
          exact ReplaceVisitor.post_canonical hv h
        next => exact ReplaceVisitor.post_canonical hv hrebuilt
termination_by (e.weight, e.size)
decreasing_by
  all_goals first
    | exact Prod.Lex.left _ _ hlt
    | exact Expr.kid_decreases hk'

theorem ConstraintManager.simplifyExpr_canonical (constraints : List Expr) (he : e.Canonical) :
    (simplifyExpr constraints e).Canonical := by
  rw [simplifyExpr]
  split
  next => exact he
  next =>
    refine ReplaceVisitor.visit_canonical ⟨fun e d hd => ?_, fun e d hd => ?_⟩ e he
    · exact absurd hd (by simp [ExprReplaceVisitor2])
    · obtain ⟨c, -, rfl⟩ := Option.map_eq_some_iff.mp hd
      trivial

/-! ## Where objects are -/

namespace BoundObject

/-- The addresses of an object; one without bytes still has its own address. -/
def extent (o : BoundObject) : ℕ := max o.mo.size.toNat 1

/-- The address is in the object. -/
def Near (o : BoundObject) (a : ℕ) : Prop := o.address ≤ a ∧ a < o.address + o.extent

/-- An access of so many bytes is within the object. -/
def Within (o : BoundObject) (a bytes : ℕ) : Prop :=
  o.address ≤ a ∧ a + bytes ≤ o.address + o.mo.size.toNat

theorem near_address (o : BoundObject) : o.Near o.address :=
  ⟨le_rfl, Nat.lt_add_of_pos_right (Nat.lt_of_lt_of_le Nat.one_pos (le_max_right _ _))⟩

theorem Within.near {o : BoundObject} {a bytes : ℕ} (h : o.Within a bytes) (hbytes : 0 < bytes) :
    o.Near a := by
  obtain ⟨hle, hend⟩ := h
  have hsize : o.mo.size.toNat ≤ o.extent := le_max_left _ _
  exact ⟨hle, by omega⟩

end BoundObject

/-- The objects do not overlap, and each ends before the address space does. -/
structure Layout (pointerWidth : ℕ) (objects : List BoundObject) : Prop where
  width : 32 ≤ pointerWidth ∧ pointerWidth ≤ 64
  apart : objects.Pairwise fun o p => o.address + o.extent ≤ p.address
  fits : ∀ o ∈ objects, o.address + o.extent ≤ 2 ^ pointerWidth

namespace Layout

variable {pointerWidth : ℕ} {objects : List BoundObject}

theorem sorted (h : Layout pointerWidth objects) :
    KeyedList.Sorted BoundObject.address objects := by
  refine h.apart.imp fun {o p} hop => ?_
  have hpos : 1 ≤ o.extent := le_max_right _ _
  omega

variable {o p : BoundObject}

theorem address_lt (h : Layout pointerWidth objects) (ho : o ∈ objects) :
    o.address < 2 ^ pointerWidth := by
  have hfits := h.fits o ho
  have hpos : 1 ≤ o.extent := le_max_right _ _
  omega

/-- Of two objects one comes first. -/
theorem cases {R : BoundObject → BoundObject → Prop} {objects : List BoundObject}
    (h : objects.Pairwise R) (ho : o ∈ objects) (hp : p ∈ objects) :
    o = p ∨ R o p ∨ R p o := by
  induction h with
  | nil => exact absurd ho List.not_mem_nil
  | cons hall _ ih =>
    rcases List.mem_cons.mp ho with rfl | ho'
    · rcases List.mem_cons.mp hp with rfl | hp'
      · exact .inl rfl
      · exact .inr (.inl (hall p hp'))
    · rcases List.mem_cons.mp hp with rfl | hp'
      · exact .inr (.inr (hall o ho'))
      · exact ih ho' hp'

/-- An address is in one object at most. -/
theorem unique (h : Layout pointerWidth objects) (ho : o ∈ objects) (hp : p ∈ objects) {a : ℕ}
    (hoa : o.Near a) (hpa : p.Near a) : o = p := by
  obtain ⟨holow, hohigh⟩ := hoa
  obtain ⟨hplow, hphigh⟩ := hpa
  rcases cases h.apart ho hp with heq | hop | hpo
  · exact heq
  · omega
  · omega

/-- Two objects do not start at the same address. -/
theorem eq_of_address (h : Layout pointerWidth objects) (ho : o ∈ objects) (hp : p ∈ objects)
    (haddress : o.address = p.address) : o = p := by
  exact h.unique ho hp o.near_address (haddress ▸ p.near_address)

end Layout

/-! ## Bounds checks -/

namespace MemoryObject

/-- The check of an offset and a number of bytes: the whole range is in the object. The bound
of an empty range in the largest object wraps around. -/
theorem boundsCheckOffsetBytes_denotes (mo : MemoryObject) {w : ℕ} (hw : 32 ≤ w) {σ : Env}
    {offset : Expr} {x : BitVec w} (hx : Denotes σ offset x) {bytes : ℕ} (hbytes : bytes < 2 ^ 32) :
    (mo.getBoundsCheckOffsetBytes w offset bytes).IsBool
      ∧ ((mo.getBoundsCheckOffsetBytes w offset bytes).Holds σ
        ↔ x.toNat + bytes ≤ mo.size.toNat ∧ ¬(bytes = 0 ∧ mo.size.toNat = 2 ^ 32 - 1)) := by
  have hpow : 2 ^ 32 ≤ 2 ^ w := Nat.pow_le_pow_right (by decide) hw
  have hsize := mo.size.isLt
  rw [getBoundsCheckOffsetBytes]
  by_cases hle : bytes ≤ mo.size.toNat
  · rw [if_pos hle]
    have hden := UltExpr.create_denotes hx
      (denotes_alloc (v := (mo.size - BitVec.ofNat 32 bytes + 1).toNat)
        (Nat.lt_of_lt_of_le (by decide) hw : 0 < w))
    have hbound : (mo.size - BitVec.ofNat 32 bytes + 1).toNat
        = (mo.size.toNat - bytes + 1) % 2 ^ 32 := by
      have hmod : bytes % 2 ^ 32 = bytes := Nat.mod_eq_of_lt hbytes
      have hsub : (mo.size - BitVec.ofNat 32 bytes).toNat = mo.size.toNat - bytes := by
        rw [BitVec.toNat_sub_of_le (by rw [BitVec.le_def, BitVec.toNat_ofNat, hmod]; exact hle),
          BitVec.toNat_ofNat, hmod]
      rw [BitVec.toNat_add, hsub]
      rfl
    refine ⟨⟨hden.1, hden.width_eq⟩, ?_⟩
    rw [hden.holds_iff, BitVec.ult_iff_lt, BitVec.lt_def, BitVec.toNat_ofNat, hbound,
      Nat.mod_eq_of_lt (a := _ % 2 ^ 32) (Nat.lt_of_lt_of_le (Nat.mod_lt _ (by decide)) hpow)]
    omega
  · rw [if_neg hle]
    refine ⟨isBool_false, iff_of_false (not_holds_false σ) fun h => ?_⟩
    omega

section Bounds

variable {pointerWidth : ℕ} {objects : List BoundObject} (hlayout : Layout pointerWidth objects)
  {o : BoundObject} (ho : o ∈ objects) {address : Expr} (htyped : address.WellTyped)
  (hwidth : address.width = pointerWidth)

include hwidth htyped

theorem exists_denotes (σ : Env) : ∃ x : BitVec pointerWidth, Denotes σ address x
    ∧ x.toNat = ObjectState.address σ address := by
  obtain ⟨x, hx⟩ := htyped.denotes (σ := σ) hwidth
  refine ⟨x, hx, ?_⟩
  rw [ObjectState.address, hx.2]
  rfl

variable (o) in
theorem getOffsetExpr_denotes {σ : Env} {x : BitVec pointerWidth} (hx : Denotes σ address x) :
    Denotes σ (o.mo.getOffsetExpr pointerWidth address)
      (x - BitVec.ofNat pointerWidth o.address) :=
  SubExpr.create_denotes hx (denotes_alloc (hwidth ▸ htyped.width_pos))

omit hwidth htyped

include hlayout ho

/-- The offset is below a bound that is not behind the end of the address space. -/
theorem offset_lt_iff (x : BitVec pointerWidth) {n : ℕ} (hn : o.address + n ≤ 2 ^ pointerWidth) :
    (x - BitVec.ofNat pointerWidth o.address).toNat < n
      ↔ o.address ≤ x.toNat ∧ x.toNat < o.address + n := by
  have hbase := hlayout.address_lt ho
  have hx := x.isLt
  rw [BitVec.toNat_sub, BitVec.toNat_ofNat, Nat.mod_eq_of_lt hbase]
  by_cases hle : o.address ≤ x.toNat
  · have hsum : 2 ^ pointerWidth - o.address + x.toNat
        = x.toNat - o.address + 2 ^ pointerWidth := by omega
    rw [hsum, Nat.add_mod_right, Nat.mod_eq_of_lt (by omega)]
    omega
  · rw [Nat.mod_eq_of_lt (by omega)]
    omega

/-- An offset in the object is the distance from its start. -/
theorem offset_toNat {x : BitVec pointerWidth} (hle : o.address ≤ x.toNat) :
    (x - BitVec.ofNat pointerWidth o.address).toNat = x.toNat - o.address := by
  have hbase := hlayout.address_lt ho
  have hx := x.isLt
  rw [BitVec.toNat_sub, BitVec.toNat_ofNat, Nat.mod_eq_of_lt hbase]
  have hsum : 2 ^ pointerWidth - o.address + x.toNat
      = x.toNat - o.address + 2 ^ pointerWidth := by omega
  rw [hsum, Nat.add_mod_right, Nat.mod_eq_of_lt (by omega)]

omit ho in
variable (o) in
theorem size_lt : o.mo.size.toNat < 2 ^ pointerWidth := by
  have hpow : 2 ^ 32 ≤ 2 ^ pointerWidth := Nat.pow_le_pow_right (by decide) hlayout.width.1
  exact Nat.lt_of_lt_of_le o.mo.size.isLt hpow

include hwidth htyped

/-- The check with a number of bytes. -/
theorem boundsCheckBytes_denotes {bytes : ℕ} (hbytes : 0 < bytes) (σ : Env) :
    (o.mo.getBoundsCheckPointerBytes pointerWidth address bytes).WellTyped
      ∧ (o.mo.getBoundsCheckPointerBytes pointerWidth address bytes).width = 1
      ∧ ((o.mo.getBoundsCheckPointerBytes pointerWidth address bytes).Holds σ
        ↔ o.Within (ObjectState.address σ address) bytes) := by
  obtain ⟨x, hx, hxa⟩ := exists_denotes htyped hwidth σ
  rw [getBoundsCheckPointerBytes, ← hxa]
  have hfits := hlayout.fits o ho
  have hextent : o.mo.size.toNat ≤ o.extent := le_max_left _ _
  have hsize := o.mo.size.isLt
  by_cases hsmall : bytes < 2 ^ 32
  · obtain ⟨⟨htyped, hwidth⟩, hiff⟩ := boundsCheckOffsetBytes_denotes o.mo hlayout.width.1
      (getOffsetExpr_denotes o htyped hwidth hx) hsmall
    refine ⟨htyped, hwidth, hiff.trans ?_⟩
    rw [and_iff_left fun h => hbytes.ne' h.1, BoundObject.Within]
    by_cases hle : bytes ≤ o.mo.size.toNat
    · -- the offset is below a bound that does not wrap around
      have hbound := offset_lt_iff hlayout ho x (n := o.mo.size.toNat - bytes + 1) (by omega)
      omega
    · omega
  · rw [getBoundsCheckOffsetBytes, if_neg (by omega)]
    refine ⟨Nat.one_pos, rfl, iff_of_false (not_holds_false σ) fun h => ?_⟩
    obtain ⟨hlow, hend⟩ := h
    omega

/-- The check without. -/
theorem boundsCheck_denotes (σ : Env) :
    (o.mo.getBoundsCheckPointer pointerWidth address).WellTyped
      ∧ (o.mo.getBoundsCheckPointer pointerWidth address).width = 1
      ∧ ((o.mo.getBoundsCheckPointer pointerWidth address).Holds σ
        ↔ o.Near (ObjectState.address σ address)) := by
  obtain ⟨x, hx, hxa⟩ := exists_denotes htyped hwidth σ
  have hpos : 0 < pointerWidth := hwidth ▸ htyped.width_pos
  rw [getBoundsCheckPointer, getBoundsCheckOffset, ← hxa, BoundObject.Near]
  have hfits := hlayout.fits o ho
  have hoffset := getOffsetExpr_denotes o htyped hwidth hx
  by_cases hzero : o.mo.size = 0
  · rw [if_pos hzero]
    have hden := EqExpr.create_denotes hoffset (denotes_alloc (v := 0) hpos)
    have hextent : o.extent = 1 := by rw [BoundObject.extent, hzero]; rfl
    rw [hextent] at hfits ⊢
    refine ⟨hden.1, hden.width_eq, ?_⟩
    rw [hden.holds_iff, beq_iff_eq, ← BitVec.toNat_inj, BitVec.toNat_ofNat, Nat.zero_mod,
      ← Nat.lt_one_iff, offset_lt_iff hlayout ho x hfits]
  · rw [if_neg hzero]
    have hden := UltExpr.create_denotes hoffset (denotes_alloc (v := o.mo.size.toNat) hpos)
    have hne : o.mo.size.toNat ≠ 0 := fun h => hzero (BitVec.eq_of_toNat_eq h)
    have hextent : o.extent = o.mo.size.toNat := max_eq_left (Nat.one_le_iff_ne_zero.mpr hne)
    rw [hextent] at hfits ⊢
    refine ⟨hden.1, hden.width_eq, ?_⟩
    refine hden.holds_iff.trans ?_
    rw [BitVec.ult_iff_lt, BitVec.lt_def, BitVec.toNat_ofNat, Nat.mod_eq_of_lt (size_lt hlayout o),
      offset_lt_iff hlayout ho x hfits]

/-- The comparisons with the start of an object. -/
theorem behind_denotes (σ : Env) :
    (UgeExpr.create address (o.mo.getBaseExpr pointerWidth)).IsBool
      ∧ ((UgeExpr.create address (o.mo.getBaseExpr pointerWidth)).Holds σ
        ↔ o.address ≤ ObjectState.address σ address) := by
  obtain ⟨x, hx, hxa⟩ := exists_denotes htyped hwidth σ
  have hbase := denotes_alloc (σ := σ) (v := o.address) (hwidth ▸ htyped.width_pos : 0 < pointerWidth)
  have hden := UleExpr.create_denotes hbase hx
  refine ⟨⟨hden.1, hden.width_eq⟩, ?_⟩
  rw [← hxa]
  refine hden.holds_iff.trans ?_
  rw [BitVec.ule_iff_le, BitVec.le_def, BitVec.toNat_ofNat,
    Nat.mod_eq_of_lt (hlayout.address_lt ho)]

theorem before_denotes (σ : Env) :
    (UltExpr.create address (o.mo.getBaseExpr pointerWidth)).IsBool
      ∧ ((UltExpr.create address (o.mo.getBaseExpr pointerWidth)).Holds σ
        ↔ ObjectState.address σ address < o.address) := by
  obtain ⟨x, hx, hxa⟩ := exists_denotes htyped hwidth σ
  have hbase := denotes_alloc (σ := σ) (v := o.address) (hwidth ▸ htyped.width_pos : 0 < pointerWidth)
  have hden := UltExpr.create_denotes hx hbase
  refine ⟨⟨hden.1, hden.width_eq⟩, ?_⟩
  rw [← hxa]
  refine hden.holds_iff.trans ?_
  rw [BitVec.ult_iff_lt, BitVec.lt_def, BitVec.toNat_ofNat,
    Nat.mod_eq_of_lt (hlayout.address_lt ho)]

end Bounds

end MemoryObject

/-! ## A solver that answers -/

namespace TimingSolver

/-- Queries about these constraints are answered truthfully, if at all. -/
structure Truthful (solver : TimingSolver) (constraints : List Expr) : Prop where
  correct : solver.solver.Correct
  satisfiable : ∃ σ, Satisfies σ constraints
  isBool : ∀ c ∈ constraints, c.IsBool

/-- Queries about these constraints are answered, and truthfully. -/
structure Reliable (solver : TimingSolver) (constraints : List Expr) : Prop extends
    Truthful solver constraints where
  answers : solver.solver.Answers

variable {solver : TimingSolver} {constraints : List Expr} {e : Expr}

theorem Truthful.mustBeTrue (h : Truthful solver constraints) (he : e.IsBool) {b : Bool}
    (hb : solver.mustBeTrue constraints e = some b) :
    b = true ↔ ∀ σ, Satisfies σ constraints → e.Holds σ :=
  mustBeTrue_sound h.correct h.satisfiable h.isBool he hb

theorem Truthful.mayBeTrue (h : Truthful solver constraints) (he : e.IsBool) {b : Bool}
    (hb : solver.mayBeTrue constraints e = some b) :
    b = true ↔ ∃ σ, Satisfies σ constraints ∧ e.Holds σ := by
  rw [TimingSolver.mayBeTrue, Option.map_eq_some_iff] at hb
  obtain ⟨must, hmust, rfl⟩ := hb
  have hiff := h.mustBeTrue he.createIsZero hmust
  rw [Bool.not_eq_true', ← Bool.not_eq_true, hiff]
  push Not
  exact exists_congr fun σ => and_congr_right fun _ => by rw [he.holds_createIsZero, not_not]

theorem Reliable.mustBeTrue (h : Reliable solver constraints) (he : e.IsBool) :
    ∃ b, solver.mustBeTrue constraints e = some b
      ∧ (b = true ↔ ∀ σ, Satisfies σ constraints → e.Holds σ) := by
  obtain ⟨b, hb⟩ : ∃ b, solver.mustBeTrue constraints e = some b := by
    have hsame := query_same solver h.isBool he.1
    have hok : (solver.query constraints e).Ok := ⟨h.satisfiable, hsame.isBool he⟩
    unfold TimingSolver.mustBeTrue
    split
    · exact ⟨_, rfl⟩
    · unfold Solver.mustBeTrue
      split
      · exact ⟨_, rfl⟩
      · exact Option.ne_none_iff_exists'.mp (h.answers.truth _ hok)
  exact ⟨b, hb, h.toTruthful.mustBeTrue he hb⟩

theorem Reliable.mayBeTrue (h : Reliable solver constraints) (he : e.IsBool) :
    ∃ b, solver.mayBeTrue constraints e = some b
      ∧ (b = true ↔ ∃ σ, Satisfies σ constraints ∧ e.Holds σ) := by
  obtain ⟨b, hb, -⟩ := h.mustBeTrue he.createIsZero
  have hmay : solver.mayBeTrue constraints e = some !b := by
    rw [TimingSolver.mayBeTrue, mustBeFalse, hb]
    rfl
  exact ⟨!b, hmay, h.toTruthful.mayBeTrue he hmay⟩

theorem Reliable.evaluate (h : Reliable solver constraints) (he : e.IsBool) :
    ∃ v, solver.evaluate constraints e = some v := by
  have hsame := query_same solver h.isBool he.1
  have hok : (solver.query constraints e).Ok := ⟨h.satisfiable, hsame.isBool he⟩
  unfold TimingSolver.evaluate
  split
  · exact ⟨_, rfl⟩
  · unfold Solver.evaluate
    split
    · exact ⟨_, rfl⟩
    · exact Option.ne_none_iff_exists'.mp (h.answers.validity _ hok)

theorem Reliable.getValue (h : Reliable solver constraints) (he : e.WellTyped) :
    ∃ value σ, solver.getValue constraints e = some value ∧ Satisfies σ constraints
      ∧ value = e.eval σ := by
  obtain ⟨value, hvalue⟩ : ∃ value, solver.getValue constraints e = some value := by
    have hsame := query_same solver h.isBool he
    unfold TimingSolver.getValue
    split
    · exact ⟨_, rfl⟩
    · unfold Solver.getValue
      split
      · exact ⟨_, rfl⟩
      · obtain ⟨r, hr⟩ := Option.ne_none_iff_exists'.mp
          (h.answers.value (solver.query constraints e) h.satisfiable hsame.wellTyped)
        obtain ⟨σ, -, rfl⟩ := h.correct.value (solver.query constraints e) r h.satisfiable
          hsame.wellTyped hr
        rw [hr]
        exact ⟨_, rfl⟩
  obtain ⟨σ, hσ, heval⟩ := getValue_sound h.correct h.satisfiable h.isBool he hvalue
  exact ⟨value, σ, hvalue, hσ, heval⟩

end TimingSolver

end Xklee
