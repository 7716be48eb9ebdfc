/-
A whole load or store: the fast path, what comes before it, and the options that narrow the
assignments.
-/
import Xklee.Core.PathReplay
import Xklee.Core.MemoryPartition
import Xklee.Core.Resolution

set_option autoImplicit false

namespace Xklee

/-! ## A new array for a value that was read -/

/-- A temporary read is as wide as it should be. -/
theorem createTempRead_width {array : KArray} {w : ℕ} {res : Expr}
    (h : MemoryExecutor.createTempRead array w = some res) :
    0 < w ∧ res.WellTyped ∧ res.width = w := by
  have hbyte : ∀ i : ℕ,
      (ReadExpr.create (.root array) (ConstantExpr.alloc i 32)).WellTyped
        ∧ (ReadExpr.create (.root array) (ConstantExpr.alloc i 32)).width = 8 := by
    intro i
    have hroot : (UpdateList.root array).WellTyped := trivial
    have hread := ReadExpr.create_denotes hroot
      (denotes_alloc (σ := fun _ _ => 0) (v := i) (by decide : 0 < 32))
    exact ⟨hread.1, hread.width_eq⟩
  have hconcat : ∀ (l : List ℕ) (e : Expr), e.WellTyped →
      let res := l.foldl (fun e i =>
        ConcatExpr.create (ReadExpr.create (.root array) (ConstantExpr.alloc i 32)) e) e
      res.WellTyped ∧ res.width = 8 * l.length + e.width := by
    intro l
    induction l with
    | nil => exact fun e he => ⟨he, by simp⟩
    | cons i l ih =>
      intro e he
      have hnext := ConcatExpr.create_hasValue (σ := fun _ _ => 0) (hbyte i).1 he
      have hwidth := hnext.width_eq.trans
        (congrArg₂ (· + ·) ((hbyte i).1.eval_width.trans (hbyte i).2) he.eval_width)
      obtain ⟨htyped, hfold⟩ := ih _ hnext.1
      refine ⟨htyped, hfold.trans ?_⟩
      rw [hwidth, List.length_cons]
      omega
  unfold MemoryExecutor.createTempRead at h
  dsimp only at h
  split at h
  next hw =>
    obtain rfl := Option.some.inj h
    have hcast := CastExpr.create_hasValue (σ := fun _ _ => 0) .ZExt (hbyte 0).1 Nat.one_pos
    exact ⟨hw ▸ Nat.one_pos, hcast.1, hcast.width_eq.trans hw.symm⟩
  next =>
    split at h
    next hw =>
      obtain rfl := Option.some.inj h
      obtain ⟨htyped, hwidth⟩ := hconcat (List.range' 1 (w / 8 - 1)) _ (hbyte 0).1
      refine ⟨by omega, htyped, hwidth.trans ?_⟩
      rw [List.length_range', (hbyte 0).2]
      omega
    next => exact absurd h (by simp)

namespace MemoryExecutor

variable {ex : MemoryExecutor} {state : MemoryState}

/-- `--make-concrete-symbolic` has replaced the value `p.1` by `p.2`, which reads a new
array. -/
def ReplacedRead (ex : MemoryExecutor) (p : Expr × Expr) : Prop :=
  ex.MakeConcreteSymbolic ≠ 0 ∧ p.1.isConstant = true
    ∧ ∃ array : KArray, array.id = ex.arrays ∧ createTempRead array p.1.width = some p.2

theorem replaceReadWithSymbolic_replaced (hcs : ∀ c ∈ state.constraints, c.IsBool) {e e' : Expr}
    {random : ℕ} {ex' : MemoryExecutor} {state' : MemoryState}
    (h : ex.replaceReadWithSymbolic state e random = some (ex', state', e')) :
    ∃ read, (∀ p ∈ read, ex.ReplacedRead p) ∧ Replaced state e read state' e' := by
  have hkept : some (ex, state, e) = some (ex', state', e') →
      ∃ read, (∀ p ∈ read, ex.ReplacedRead p) ∧ Replaced state e read state' e' := by
    intro heq
    obtain ⟨-, heq⟩ := Prod.mk.inj (Option.some.inj heq)
    obtain ⟨rfl, rfl⟩ := Prod.mk.inj heq
    exact ⟨none, fun p hp => absurd hp (by simp), .refl _ _⟩
  unfold replaceReadWithSymbolic at h
  dsimp only at h
  split at h
  next => exact hkept h
  next hmode =>
    split at h
    next => exact hkept h
    next hconst =>
      split at h
      next => exact hkept h
      next =>
        simp only [bind, Option.bind_eq_some_iff] at h
        obtain ⟨res, hres, constraints, hadd, heq⟩ := h
        obtain ⟨-, heq⟩ := Prod.mk.inj (Option.some.inj heq)
        obtain ⟨rfl, rfl⟩ := Prod.mk.inj heq
        obtain ⟨hpos, htyped, hwidth⟩ := createTempRead_width hres
        have hisConstant : e.isConstant = true := by simpa using hconst
        have he : e.WellTyped := by
          cases e with
          | Constant c => exact hpos
          | _ => exact absurd hisConstant (by simp [Expr.isConstant])
        -- the new constraint
        have hvalue : ∀ σ, (Expr.NotOptimized (EqExpr.create e res)).IsBool
            ∧ ((Expr.NotOptimized (EqExpr.create e res)).Holds σ ↔ e.eval σ = res.eval σ) := by
          intro σ
          obtain ⟨x, hx⟩ := he.denotes (σ := σ) rfl
          obtain ⟨y, hy⟩ := htyped.denotes (σ := σ) hwidth
          have hden := EqExpr.create_denotes hx hy
          refine ⟨⟨hden.1, hden.width_eq⟩, (hden.holds_iff).trans ?_⟩
          rw [hx.2, hy.2, beq_iff_eq]
          simp
        have hrep := ConstraintManager.addConstraint_represents hcs (hvalue fun _ _ => 0).1
        rw [hadd] at hrep
        have hn : ex.MakeConcreteSymbolic ≠ 0 := by
          intro hzero
          rw [hzero] at hmode
          exact hmode (.inl rfl)
        have hiff : ∀ σ, Satisfies σ constraints
            ↔ Satisfies σ state.constraints ∧ e.eval σ = res.eval σ := fun σ =>
          (hrep.2 σ trivial).trans (and_congr_right fun _ => (hvalue σ).2)
        refine ⟨some (e, res), fun p hp => ?_, rfl, fun σ => ?_, fun σ hσ v hv => ?_⟩
        · obtain rfl := Option.some.inj hp
          exact ⟨hn, hisConstant, _, rfl, hres⟩
        · refine (hiff σ).trans (and_congr_right fun _ => ?_)
          simp
        · exact ⟨htyped, ((hiff σ).mp hσ).2.symm.trans hv.2⟩

/-! ## Concretising an address -/

/-- The address has one value in a state: it has the assignments of `state` under which the
address has this value. -/
structure Concretised (ex : MemoryExecutor) (state : MemoryState) (e : Expr) (ex' : MemoryExecutor)
    (state' : MemoryState) (value : APInt) : Prop where
  same : ex.SameMemory ex'
  ready : ex'.Ready state'
  objects : state'.objects = state.objects
  width : value.width = e.width
  possible : ∃ σ, Satisfies σ state'.constraints
  satisfies_iff : ∀ σ, Satisfies σ state'.constraints
    ↔ Satisfies σ state.constraints ∧ e.eval σ = value

section Concretise

variable (hready : ex.Ready state) (hanswers : ex.solver.solver.Answers)
  (hsat : ∃ σ, Satisfies σ state.constraints)

include hready hanswers hsat

/-- The solver can be asked about the state. -/
theorem reliable : ex.solver.Reliable state.constraints :=
  ⟨⟨hready.solver, hsat, hready.isBool⟩, hanswers⟩

theorem toConstant_concretised {e : Expr} (he : e.WellTyped) {ex' : MemoryExecutor}
    {state' : MemoryState} {value : APInt} (h : ex.toConstant state e = some (ex', state', value)) :
    Concretised ex state e ex' state' value := by
  have hsame := ConstraintManager.simplifyExpr_same hready.isBool he
  unfold toConstant at h
  split at h
  next CE hCE =>
    obtain ⟨rfl, heq⟩ := Prod.mk.inj (Option.some.inj h)
    obtain ⟨rfl, rfl⟩ := Prod.mk.inj heq
    rw [hCE] at hsame
    exact ⟨.refl ex, hready, rfl, hsame.width, hsat,
      fun σ => (and_iff_left_of_imp fun hσ => (hsame.eval σ hσ).symm).symm⟩
  next =>
    simp only [bind, Option.bind_eq_some_iff] at h
    obtain ⟨v, hv, ⟨executor, s⟩, hadd, heq⟩ := h
    obtain ⟨rfl, heq'⟩ := Prod.mk.inj (Option.some.inj heq)
    obtain ⟨rfl, rfl⟩ := Prod.mk.inj heq'
    obtain ⟨v', σ₀, hv', hσ₀, hval⟩ := (reliable hready hanswers hsat).getValue hsame.wellTyped
    obtain rfl := Option.some.inj (hv'.symm.trans hv)
    have hwidth : v'.width = e.width := by
      rw [hval, hsame.wellTyped.eval_width, hsame.width]
    obtain ⟨x, rfl⟩ := APInt.eq_mk_of_width (hwidth.trans hsame.width.symm)
    have hvalue : ∀ σ, (EqExpr.create (ConstraintManager.simplifyExpr state.constraints e)
          (.Constant ⟨_, x⟩)).IsBool
        ∧ ((EqExpr.create (ConstraintManager.simplifyExpr state.constraints e)
            (.Constant ⟨_, x⟩)).Holds σ
          ↔ (ConstraintManager.simplifyExpr state.constraints e).eval σ = ⟨_, x⟩) := by
      intro σ
      obtain ⟨y, hy⟩ := hsame.wellTyped.denotes (σ := σ) rfl
      have hden := EqExpr.create_denotes hy (denotes_const hsame.wellTyped.width_pos x)
      refine ⟨⟨hden.1, hden.width_eq⟩, hden.holds_iff.trans ?_⟩
      rw [hy.2, beq_iff_eq]
      simp
    obtain ⟨hadds, seeds, rfl⟩ := Executor.addConstraint_adds hready.isBool (hvalue fun _ _ => 0).1 hadd
    have hiff : ∀ σ, Satisfies σ s.constraints ↔ Satisfies σ state.constraints ∧ e.eval σ = ⟨_, x⟩ := by
      intro σ
      refine (hadds.satisfies_iff σ).trans (and_congr_right fun hσ => ?_)
      rw [(hvalue σ).2, hsame.eval σ hσ]
    exact ⟨⟨rfl, rfl⟩, ⟨hready.solver, hready.widths, hadds.isBool⟩, rfl, hwidth,
      ⟨σ₀, (hiff σ₀).mpr ⟨hσ₀, by rw [hval, hsame.eval σ₀ hσ₀]⟩⟩, hiff⟩

end Concretise

/-! ## The fast path -/

section Fast

variable {parent : MemoryState} {address : Expr} {op : MemoryOperation}
  {view : Env → ℕ → ByteMemory} {chances : ℕ → ForkChance} {r : MemoryResult} {random : ℕ}

section Address

variable (h : Accesses ex parent view address op) (hready : ex.Ready state)
  (hanswers : ex.solver.solver.Answers) (hsat : ∃ σ, Satisfies σ state.constraints)
  (hbelow : Below parent state)

include h hready hanswers hsat hbelow

/-- The slow path, from the resolution on. -/
theorem accessResolved_partitions
    (hresolved : ex.accessResolved address (ObjectState.accessBytes op.type) op chances state
      = some r) :
    r.Partitions (fun σ => Satisfies σ state.constraints) (Outcome ex parent view address op) := by
  obtain ⟨hcomplete, hfrom, hall⟩ := resolve_complete (reliable hready hanswers hsat)
    h.holds.layout h.wellTyped h.width hbelow.objects rfl
  unfold accessResolved at hresolved
  dsimp only at hresolved
  rw [hcomplete] at hresolved
  refine accessEach_partitions h hready hbelow hfrom (fun σ hσ o ho hwithin => ?_) hresolved
  exact hall σ hσ o ho (hwithin.near (accessBytes_pos h.op))

/-- The fast path, or the slow path when the check does not always hold. -/
theorem accessFound_partitions {o : BoundObject} (ho : o ∈ parent.objects)
    (hfound : ex.accessFound address (ObjectState.accessBytes op.type) op chances state o random
      = some r) :
    ∃ read : Option (Expr × Expr), (∀ p ∈ read, ex.ReplacedRead p)
      ∧ r.Partitions (fun σ => Satisfies σ state.constraints ∧ ∀ p ∈ read, p.1.eval σ = p.2.eval σ)
        (Outcome ex parent view address op) := by
  obtain ⟨must, hmust, hiff⟩ := (reliable hready hanswers hsat).mustBeTrue (boundsCheck_isBool h ho)
  unfold accessFound at hfound
  dsimp only at hfound
  have hcheck : o.mo.getBoundsCheckOffsetBytes ex.pointerWidth
      (o.mo.getOffsetExpr ex.pointerWidth address) (ObjectState.accessBytes op.type)
      = o.mo.getBoundsCheckPointerBytes ex.pointerWidth address
        (ObjectState.accessBytes op.type) := rfl
  rw [hcheck, hmust] at hfound
  cases must with
  | false =>
    refine ⟨none, fun p hp => absurd hp (by simp), ?_⟩
    have hslow := accessResolved_partitions h hready hanswers hsat hbelow hfound
    exact hslow.congr (fun σ => (and_iff_left fun p hp => absurd hp (by simp)).symm)
      fun _ _ _ => id
  | true =>
    obtain ⟨⟨ex', s, ending⟩, haccess, rfl⟩ := Option.map_eq_some_iff.mp hfound
    obtain ⟨read, hread, hsatisfies, hout⟩ := access_outcome h.holds h.op h.wellTyped h.canonical
      h.width hbelow ho (P := fun read => ∀ p ∈ read, ex.ReplacedRead p)
      (fun p hp => absurd hp (by simp))
      (fun _ hst hrep => replaceReadWithSymbolic_replaced (hst ▸ hready.isBool) hrep) haccess
    refine ⟨read, hread, .single hsatisfies fun σ hσ => hout σ hσ ?_⟩
    exact (holds_boundsCheck h ho σ).mp (hiff.mp rfl σ ((hsatisfies σ).mp hσ).1)

end Address

end Fast

end MemoryExecutor

/-! ## What the options keep -/

/-- What the options narrow the assignments to: one value of the address, and a new array
with the value that was read. -/
structure Narrowing where
  address : Option APInt
  read : Option (Expr × Expr)

namespace Narrowing

/-- The assignment is kept. -/
def Keeps (n : Narrowing) (σ : Env) (address : Expr) : Prop :=
  (∀ value ∈ n.address, address.eval σ = value) ∧ ∀ p ∈ n.read, p.1.eval σ = p.2.eval σ

/-- What the options narrow: `--max-sym-array-size` the address, to a value that it may have,
when there is an object so large; and `--make-concrete-symbolic` the value. -/
structure Made (n : Narrowing) (ex : MemoryExecutor) (state : MemoryState) (address : Expr) :
    Prop where
  address : ∀ value ∈ n.address, ex.MaxSymArraySize ≠ 0
    ∧ (∃ o ∈ state.objects, ex.MaxSymArraySize ≤ o.mo.size)
    ∧ ∃ σ, Satisfies σ state.constraints ∧ address.eval σ = value
  read : ∀ p ∈ n.read, ex.ReplacedRead p

/-- Nothing is narrowed. -/
def all : Narrowing := ⟨none, none⟩

theorem all_keeps (σ : Env) (address : Expr) : all.Keeps σ address :=
  ⟨fun _ h => absurd h (by simp [all]), fun _ h => absurd h (by simp [all])⟩

theorem all_made (ex : MemoryExecutor) (state : MemoryState) (address : Expr) :
    all.Made ex state address :=
  ⟨fun _ h => absurd h (by simp [all]), fun _ h => absurd h (by simp [all])⟩

end Narrowing

namespace MemoryExecutor

section Operation

variable {ex : MemoryExecutor} {state : MemoryState} {address : Expr} {op : MemoryOperation}
  {view : Env → ℕ → ByteMemory} {chances : ℕ → ForkChance} {r : MemoryResult} {random : ℕ}

variable {ex' : MemoryExecutor} {value : APInt} {σ : Env} {x : MemoryState × Ending}

theorem replacedRead_of_same (hsame : ex.SameMemory ex') {p : Expr × Expr} (h : ex'.ReplacedRead p)
    : ex.ReplacedRead p := by
  rw [hsame.rest] at h
  exact h

/-- The access of a concretised address. -/
theorem Accesses.concretised (h : Accesses ex state view address op) {state' : MemoryState}
    (hc : Concretised ex state address ex' state' value) :
    Accesses ex' state view (.Constant value) op := by
  have hwidth : value.width = ex'.pointerWidth := by
    rw [hc.same.rest]
    exact hc.width.trans h.width
  have hholds := (h.of_same hc.same).holds
  refine ⟨hholds, h.op, ?_, trivial, hwidth⟩
  have hpos : 0 < ex'.pointerWidth := Nat.lt_of_lt_of_le (by decide) hholds.layout.width.1
  exact (hwidth ▸ hpos : 0 < value.width)

theorem Outcome.concretised (hsame : ex.SameMemory ex') (heval : address.eval σ = value)
    (h : Outcome ex' state view (.Constant value) op σ x) :
    Outcome ex state view address op σ x := by
  rw [outcome_of_same hsame] at h
  have haddress : ObjectState.address σ (.Constant value) = ObjectState.address σ address := by
    rw [ObjectState.address, ObjectState.address, heval]
    rfl
  rw [Outcome, haddress] at h
  exact h

/-- The operation on simplified arguments. -/
theorem accessAddress_partitions (h : Accesses ex state view address op)
    (hready : ex.Ready state) (hanswers : ex.solver.solver.Answers)
    (hsat : ∃ σ, Satisfies σ state.constraints)
    (haccess : ex.accessAddress address (ObjectState.accessBytes op.type) op chances state random
      = some r) :
    ∃ n : Narrowing, n.Made ex state address
      ∧ r.Partitions (fun σ => Satisfies σ state.constraints ∧ n.Keeps σ address)
        (Outcome ex state view address op) := by
  have hbelow : Below state state := ⟨rfl, fun _ => id⟩
  obtain ⟨found, hfound, hin⟩ := resolveOne_found (reliable hready hanswers hsat)
    h.holds.layout h.wellTyped h.width rfl rfl
  unfold accessAddress at haccess
  rw [resolveFirst, hfound] at haccess
  simp only [bind, Option.bind_some] at haccess
  cases found with
  | none =>
    have hslow := accessResolved_partitions h hready hanswers hsat hbelow haccess
    refine ⟨.all, Narrowing.all_made ex state address, hslow.congr (fun σ => ?_) fun _ _ _ => id⟩
    exact (and_iff_left (Narrowing.all_keeps σ address)).symm
  | some o =>
    have ho := (hin.sound o rfl).1
    obtain ⟨⟨ex', state', address'⟩, hlimit, haccess⟩ := Option.bind_eq_some_iff.mp haccess
    unfold limitAddress at hlimit
    split at hlimit
    next hlarge =>
      simp only [bind, Option.bind_eq_some_iff] at hlimit
      obtain ⟨⟨ex₁, state₁, value⟩, hconstant, heq⟩ := hlimit
      obtain ⟨rfl, heq'⟩ := Prod.mk.inj (Option.some.inj heq)
      obtain ⟨rfl, rfl⟩ := Prod.mk.inj heq'
      have hc := toConstant_concretised hready hanswers hsat h.wellTyped hconstant
      obtain ⟨σ₀, hσ₀⟩ := hc.possible
      obtain ⟨read, hread, hpart⟩ := accessFound_partitions (h.concretised hc) hc.ready
        (hc.same.solver ▸ hanswers) hc.possible
        ⟨hc.objects, fun σ hσ => ((hc.satisfies_iff σ).mp hσ).1⟩ ho haccess
      refine ⟨⟨some value, read⟩, ⟨fun v hv => ?_, fun p hp => ?_⟩,
        hpart.congr (fun σ => ?_) fun σ x hP hout => ?_⟩
      · obtain rfl := Option.some.inj hv
        exact ⟨hlarge.1, ⟨o, ho, hlarge.2⟩, σ₀, (hc.satisfies_iff σ₀).mp hσ₀⟩
      · exact replacedRead_of_same hc.same (hread p hp)
      · have hkeeps : (∀ v ∈ (some value : Option APInt), address.eval σ = v)
            ↔ address.eval σ = value := by simp
        rw [hc.satisfies_iff, Narrowing.Keeps, hkeeps, and_assoc]
      · exact Outcome.concretised hc.same ((hc.satisfies_iff σ).mp hP.1).2 hout
    next =>
      obtain ⟨rfl, heq⟩ := Prod.mk.inj (Option.some.inj hlimit)
      obtain ⟨rfl, rfl⟩ := Prod.mk.inj heq
      obtain ⟨read, hread, hpart⟩ := accessFound_partitions h hready hanswers hsat hbelow ho haccess
      refine ⟨⟨none, read⟩, ⟨fun v hv => absurd hv (by simp), hread⟩,
        hpart.congr (fun σ => and_congr_right fun _ => ?_) fun _ _ _ => id⟩
      exact (and_iff_right fun v hv => absurd hv (by simp)).symm

/-- Simplified arguments mean the same where the constraints hold. -/
theorem Accesses.simplify (h : Accesses ex state view address op)
    (hcs : ∀ c ∈ state.constraints, c.IsBool) :
    Accesses ex state view (ConstraintManager.simplifyExpr state.constraints address)
        (op.simplify state.constraints)
      ∧ (op.simplify state.constraints).type = op.type := by
  have hsame := ConstraintManager.simplifyExpr_same hcs h.wellTyped
  have hcanonical := ConstraintManager.simplifyExpr_canonical state.constraints h.canonical
  have hwidth := hsame.width.trans h.width
  cases op with
  | read type => exact ⟨⟨h.holds, h.op, hsame.wellTyped, hcanonical, hwidth⟩, rfl⟩
  | write value =>
    have hvalue := ConstraintManager.simplifyExpr_same hcs h.op.2
    refine ⟨⟨h.holds, ⟨?_, hvalue.wellTyped⟩, hsame.wellTyped, hcanonical, hwidth⟩, hvalue.width⟩
    rw [hvalue.width]
    exact h.op.1

theorem Outcome.of_simplify (h : Accesses ex state view address op)
    (hcs : ∀ c ∈ state.constraints, c.IsBool) (hσ : Satisfies σ state.constraints)
    (hout : Outcome ex state view (ConstraintManager.simplifyExpr state.constraints address)
      (op.simplify state.constraints) σ x) : Outcome ex state view address op σ x := by
  have hsame := ConstraintManager.simplifyExpr_same hcs h.wellTyped
  have haddress : ObjectState.address σ (ConstraintManager.simplifyExpr state.constraints address)
      = ObjectState.address σ address := congrArg APInt.toNat (hsame.eval σ hσ)
  have htype := (h.simplify hcs).2
  have hallowed : ∀ o, (op.simplify state.constraints).Allowed o ↔ op.Allowed o := by
    intro o
    cases op <;> exact Iff.rfl
  have hafter : ∀ o offset, (op.simplify state.constraints).after ex.isLittleEndian σ o offset (view σ)
      = op.after ex.isLittleEndian σ o offset (view σ) := by
    intro o offset
    cases op with
    | read type => rfl
    | write value =>
      have hvalue := ConstraintManager.simplifyExpr_same hcs h.op.2
      rw [MemoryOperation.simplify, MemoryOperation.after, MemoryOperation.after, hvalue.eval σ hσ]
  rw [Outcome, haddress] at hout
  cases hout with
  | accessed ho hwithin hallow hacc =>
    refine .accessed ho (htype ▸ hwithin) ((hallowed _).mp hallow)
      ⟨hacc.objects, hafter _ _ ▸ hacc.bytes, fun type heq => hacc.loaded type ?_⟩
    rw [heq]
    rfl
  | readOnly ho hwithin hnot => exact .readOnly ho (htype ▸ hwithin) ((hallowed _).not.mp hnot)
  | outOfBound hnone => exact .outOfBound fun o ho => htype ▸ hnone o ho

/-- The states after a load or a store partition the assignments that the options keep. -/
theorem executeMemoryOperation_outcomes (h : Accesses ex state view address op)
    (hready : ex.Ready state) (hanswers : ex.solver.solver.Answers)
    (hsat : ∃ σ, Satisfies σ state.constraints)
    (hexec : ex.executeMemoryOperation address op chances state random = some r) :
    ∃ n : Narrowing, n.Made ex state address
      ∧ r.Partitions (fun σ => Satisfies σ state.constraints ∧ n.Keeps σ address)
        (Outcome ex state view address op) := by
  unfold executeMemoryOperation at hexec
  dsimp only at hexec
  split at hexec
  next =>
    obtain ⟨haccesses, htype⟩ := h.simplify hready.isBool
    have hsame := ConstraintManager.simplifyExpr_same hready.isBool h.wellTyped
    rw [← htype] at hexec
    obtain ⟨n, hmade, hpart⟩ := accessAddress_partitions haccesses hready hanswers hsat hexec
    refine ⟨n, ⟨fun value hvalue => ?_, hmade.read⟩, hpart.congr (fun σ => ?_) fun σ x hP hout => ?_⟩
    · obtain ⟨hmax, hlarge, σ, hσ, heval⟩ := hmade.address value hvalue
      exact ⟨hmax, hlarge, σ, hσ, (hsame.eval σ hσ).symm.trans heval⟩
    · refine and_congr_right fun hσ => ?_
      rw [Narrowing.Keeps, Narrowing.Keeps, hsame.eval σ hσ]
    · exact Outcome.of_simplify h hready.isBool hP.1 hout
  next => exact accessAddress_partitions h hready hanswers hsat hexec

end Operation

end MemoryExecutor

/-! ## Forking allowed -/

namespace Executor

/-- Nothing but the solver decides a branch. -/
structure Free (ex : Executor) : Prop where
  seedMap : ex.seedMap = fun _ => none
  replayPath : ex.replayPath = none
  replayOut : ex.replayOut = false
  atMemoryLimit : ex.atMemoryLimit = false
  inhibitForking : ex.inhibitForking = false
  MaxForks : ex.MaxForks = BitVec.allOnes 32
  MaxDepth : ex.MaxDepth = 0

theorem Free.addState {ex : Executor} (h : ex.Free) : ex.addState.Free :=
  ⟨h.seedMap, h.replayPath, h.replayOut, h.atMemoryLimit, h.inhibitForking, h.MaxForks, h.MaxDepth⟩

theorem Free.terminateState {ex : Executor} (h : ex.Free) (state : ExecutionState) :
    (ex.terminateState state).Free := by
  rw [Executor.terminateState]
  split
  · refine ⟨?_, h.replayPath, h.replayOut, h.atMemoryLimit, h.inhibitForking, h.MaxForks, h.MaxDepth⟩
    funext id
    rw [h.seedMap]
    exact congrFun (Function.update_eq_self state.id fun _ => none) id
  · exact ⟨h.seedMap, h.replayPath, h.replayOut, h.atMemoryLimit, h.inhibitForking, h.MaxForks,
      h.MaxDepth⟩

variable {ex : Executor} {state : ExecutionState} {condition : Expr}

theorem Free.inhibits (h : ex.Free) (hstate : state.forkDisabled = false) :
    ex.inhibits state = false := by
  simp [Executor.inhibits, h.atMemoryLimit, hstate, h.inhibitForking, h.MaxForks]

/-- A state that may fork, and is possible. -/
structure Open (state : ExecutionState) : Prop where
  forkDisabled : state.forkDisabled = false
  satisfiable : ∃ σ, Satisfies σ state.constraints

/-- In a fork of a free executor the solver decides. -/
theorem Free.fork_eq (h : ex.Free) (hsolver : ex.solver.Reliable state.constraints)
    (he : condition.IsBool) (hstate : state.forkDisabled = false) (getBool : Bool) :
    ∃ res, ex.solver.evaluate state.constraints condition = some res
      ∧ ex.fork state condition true false getBool = ex.forkResult state condition getBool res := by
  have hnone : ∀ id, ex.seedMap id = none := fun id => congrFun h.seedMap id
  obtain ⟨res, hres⟩ := hsolver.evaluate he
  have hevaluated : ex.fork state condition true false getBool
      = ex.forkEvaluated state condition true getBool := by
    simp [Executor.fork, forkStatic, hnone]
  have hdecide : ex.decideBranch state condition true getBool res = some (ex, state, res) := by
    simp [decideBranch, hnone, decideByReplay, h.replayOut, h.inhibits hstate]
  refine ⟨res, hres, ?_⟩
  rw [hevaluated, forkEvaluated, hres]
  dsimp only
  rw [hdecide]
  rfl

/-- A fork of a free executor returns, and leaves it free. -/
theorem Free.fork (h : ex.Free) (hsolver : ex.solver.Reliable state.constraints)
    (he : condition.IsBool) (hstate : state.forkDisabled = false) (getBool : Bool) :
    ∃ r, ex.fork state condition true false getBool = some r ∧ r.executor.Free
      ∧ (∀ s, r.trueState = some s ∨ r.falseState = some s → Open s)
      ∧ ex.Undecided state condition true false := by
  have hnone : ∀ id, ex.seedMap id = none := fun id => congrFun h.seedMap id
  obtain ⟨res, hres, hfork⟩ := h.fork_eq hsolver he hstate getBool
  have hvalidity := TimingSolver.evaluate_sound hsolver.correct hsolver.satisfiable hsolver.isBool he
    hres
  have hopen : Open state := ⟨hstate, hsolver.satisfiable⟩
  have hund : ex.Undecided state condition true false := by
    refine ⟨.inr (by rw [hnone]; rfl), by simp, by rw [hres]; simp, fun _ => ⟨?_, ?_, ?_, ?_⟩⟩
    · exact fun _ => .inr rfl
    · exact fun _ => h.inhibits hstate
    · exact fun seeds hseeds => absurd (hseeds.symm.trans (hnone state.id)) (by simp)
    · exact fun hdepth => hdepth.1 h.MaxDepth
  rw [hfork]
  cases res with
  | True =>
    refine ⟨_, rfl, h, fun s hs => ?_, hund⟩
    obtain rfl : state = s := Option.some.inj (hs.resolve_right (by simp))
    exact hopen
  | False =>
    refine ⟨_, rfl, h, fun s hs => ?_, hund⟩
    obtain rfl : state = s := Option.some.inj (hs.resolve_left (by simp))
    exact hopen
  | Unknown =>
    obtain ⟨htrue, hfalse⟩ := hvalidity
    obtain ⟨t, f, hsplit, htd, hfd⟩ := @splitState_unlimited ex state condition getBool
      hsolver.isBool he h.seedMap h.MaxDepth htrue hfalse
    obtain ⟨σ, hσ, hc⟩ := htrue
    obtain ⟨τ, hτ, hd⟩ := hfalse
    obtain ⟨-, -, ⟨hno, -⟩ | ⟨t', f', ht, hf, -, -, -, -, htσ, hfσ⟩⟩ :=
      splitState_cases hsolver.isBool he hsplit
    · exact absurd hno (by simp)
    · obtain rfl := Option.some.inj ht
      obtain rfl := Option.some.inj hf
      refine ⟨_, hsplit, h.addState, fun s hs => ?_, hund⟩
      rcases hs with hs | hs
      · obtain rfl := Option.some.inj hs
        exact ⟨htd.trans hstate, σ, (htσ σ).mpr ⟨hσ, hc⟩⟩
      · obtain rfl := Option.some.inj hs
        exact ⟨hfd.trans hstate, τ, (hfσ τ).mpr ⟨hτ, hd⟩⟩

end Executor

namespace MemoryExecutor

section Returns

variable {ex : MemoryExecutor} {state parent unbound : MemoryState} {address : Expr}
  {op : MemoryOperation} {view : Env → ℕ → ByteMemory} {chances : ℕ → ForkChance}
  {r : MemoryResult} {random : ℕ}

/-- The result is there, and no mode has decided a branch. -/
def Forked (result : Option MemoryResult) : Prop :=
  ∃ r, result = some r ∧ ∀ call ∈ r.forks, call.Undecided

theorem access_free (hfree : ex.Free) {b : MemoryState} {o : BoundObject} {offset : Expr}
    {x : MemoryExecutor × MemoryState × Ending}
    (h : ex.access b o offset op (fun state result => some (ex, state, result)) = some x) :
    x.1.Free := by
  unfold access at h
  split at h
  next =>
    split at h
    next =>
      obtain rfl := Option.some.inj h
      exact hfree.terminateState _
    next =>
      simp only [bind, Option.bind_eq_some_iff] at h
      obtain ⟨os, -, heq⟩ := h
      obtain rfl := Option.some.inj heq
      exact hfree
  next =>
    simp only [bind, Option.bind_eq_some_iff] at h
    obtain ⟨_, -, _, hrep, heq⟩ := h
    obtain rfl := Option.some.inj hrep
    obtain rfl := Option.some.inj heq
    exact hfree

/-- The loop returns. -/
theorem accessEach_returns (h : Accesses ex parent view address op) (hfree : ex.Free)
    (hready : ex.Ready unbound) (hanswers : ex.solver.solver.Answers)
    (hopen : Executor.Open unbound.toExecutionState) (hbelow : Below parent unbound)
    (hchances : ∀ n, (chances n).atStaticLimit = false) {rl : List BoundObject}
    (hrl : ∀ o ∈ rl, o ∈ parent.objects) (n : ℕ) (incomplete : Bool) :
    Forked (accessEach address (ObjectState.accessBytes op.type) op chances incomplete n ex unbound
      rl) := by
  induction rl generalizing ex unbound n with
  | nil => exact ⟨_, rfl, fun call hcall => absurd hcall List.not_mem_nil⟩
  | cons o rl ih =>
    obtain ⟨ho, hrl⟩ := List.forall_mem_cons.mp hrl
    obtain ⟨f, hf, hffree, hfopen, hund⟩ := hfree.fork
      (reliable hready hanswers hopen.satisfiable) (boundsCheck_isBool h ho) hopen.forkDisabled
      (chances n).getBool
    have hlimit : (chances n).atStaticLimit = false := hchances n
    obtain ⟨p, hp, hpfree, hpopen, hpund⟩ : ∃ p, ex.forkState unbound
        (o.mo.getBoundsCheckPointerBytes ex.pointerWidth address (ObjectState.accessBytes op.type))
        (chances n) = some p ∧ p.executor.Free
        ∧ (∀ s, p.first = some s ∨ p.second = some s → Executor.Open s.toExecutionState)
        ∧ p.call.Undecided := by
      refine ⟨_, Option.map_eq_some_iff.mpr ⟨f, hlimit ▸ hf, rfl⟩, hffree, fun s hs => ?_, ?_⟩
      · rcases hs with hs | hs
        · obtain ⟨t, ht, rfl⟩ := Option.map_eq_some_iff.mp hs
          exact hfopen t (.inl ht)
        · obtain ⟨t, ht, rfl⟩ := Option.map_eq_some_iff.mp hs
          exact hfopen t (.inr ht)
      · rw [ForkCall.Undecided, hlimit]
        exact hund
    have hsplits := forkState_splits hready (boundsCheck_isBool h ho) hp
    -- the access in the state in which it is within the object
    obtain ⟨⟨ex₁, states⟩, hbound, hfree₁, hsame₁⟩ : ∃ x,
        p.executor.accessBound address op o p.first = some x ∧ x.1.Free
          ∧ p.executor.SameMemory x.1 := by
      cases hfirst : p.first with
      | none => exact ⟨_, rfl, hpfree, .refl _⟩
      | some bound =>
        have hside := hsplits.first bound hfirst
        obtain ⟨σ, hσ⟩ := (hpopen bound (.inl hfirst)).satisfiable
        have haccesses := h.of_same hsplits.executor
        have hbelow' : Below parent bound :=
          ⟨hside.objects.trans hbelow.objects, fun σ hσ => hbelow.sound σ (hside.sound σ hσ).1⟩
        have hwithin := (holds_boundsCheck h ho σ).mp (hside.sound σ hσ).2
        obtain ⟨x, hx⟩ := access_returns (fun state result => some (p.executor, state, result))
          haccesses.holds haccesses.op haccesses.wellTyped haccesses.canonical haccesses.width hbelow'
          ho hσ hwithin fun _ _ => rfl
        have hbound : p.executor.accessBound address op o (some bound) = some (x.1, [x.2]) := by
          rw [accessBound, hx]
          rfl
        refine ⟨_, hbound, access_free hpfree hx, ?_⟩
        have hfirst' : ∀ s, some bound = some s → Below parent s ∧ ∀ τ, Satisfies τ s.constraints →
            o.Within (ObjectState.address τ address) (ObjectState.accessBytes op.type) := by
          intro s hs
          obtain rfl := Option.some.inj hs
          refine ⟨hbelow', fun τ hτ => ?_⟩
          exact (holds_boundsCheck h ho τ).mp (hside.sound τ hτ).2
        exact (accessBound_sound haccesses ho hfirst' hbound).1
    unfold accessEach
    simp only [bind, hp, Option.bind_some, hbound]
    cases hsecond : p.second with
    | none =>
      refine ⟨_, rfl, fun call hcall => ?_⟩
      rw [List.mem_singleton.mp hcall]
      exact hpund
    | some unbound' =>
      have hside := hsplits.second unbound' hsecond
      have hsame := hsplits.executor.trans hsame₁
      obtain ⟨r, hr, hforks⟩ := ih (h.of_same hsame) hfree₁ (hside.ready.of_same hsame₁)
        (hsame.solver ▸ hanswers) (hpopen unbound' (.inr hsecond))
        ⟨hside.objects.trans hbelow.objects, fun σ hσ => hbelow.sound σ (hside.sound σ hσ).1⟩ hrl
        (n + 1)
      refine ⟨_, Option.map_eq_some_iff.mpr ⟨r, hr, rfl⟩, ?_⟩
      exact List.forall_mem_cons.mpr ⟨hpund, hforks⟩

section Whole

variable (h : Accesses ex parent view address op) (hfree : ex.Free) (hready : ex.Ready state)
  (hanswers : ex.solver.solver.Answers) (hopen : Executor.Open state.toExecutionState)
  (hbelow : Below parent state) (hchances : ∀ n, (chances n).atStaticLimit = false)

include h hfree hready hanswers hopen hbelow hchances

theorem accessResolved_returns :
    Forked (ex.accessResolved address (ObjectState.accessBytes op.type) op chances state) := by
  obtain ⟨-, hfrom, -⟩ := resolve_complete (reliable hready hanswers hopen.satisfiable)
    h.holds.layout h.wellTyped h.width hbelow.objects rfl
  exact accessEach_returns h hfree hready hanswers hopen hbelow hchances hfrom 0 _

theorem accessFound_returns (hconcrete : ex.MakeConcreteSymbolic = 0) {o : BoundObject}
    (ho : o ∈ parent.objects) :
    Forked (ex.accessFound address (ObjectState.accessBytes op.type) op chances state o random) := by
  obtain ⟨must, hmust, hiff⟩ :=
    (reliable hready hanswers hopen.satisfiable).mustBeTrue (boundsCheck_isBool h ho)
  have hcheck : ex.solver.mustBeTrue state.constraints (o.mo.getBoundsCheckOffsetBytes
      ex.pointerWidth (o.mo.getOffsetExpr ex.pointerWidth address)
      (ObjectState.accessBytes op.type)) = some must := hmust
  unfold accessFound
  dsimp only
  rw [hcheck]
  cases must with
  | false => exact accessResolved_returns h hfree hready hanswers hopen hbelow hchances
  | true =>
    obtain ⟨σ, hσ⟩ := hopen.satisfiable
    have hreplace : ∀ st e, (ex.replaceReadWithSymbolic st e random).isSome = true := by
      intro st e
      rw [replaceReadWithSymbolic, hconcrete]
      rfl
    obtain ⟨x, hx⟩ := access_returns (fun st e => ex.replaceReadWithSymbolic st e random) h.holds h.op
      h.wellTyped h.canonical h.width hbelow ho hσ
      ((holds_boundsCheck h ho σ).mp (hiff.mp rfl σ hσ)) hreplace
    refine ⟨_, Option.map_eq_some_iff.mpr ⟨x, hx, rfl⟩, ?_⟩
    exact fun call hcall => absurd hcall List.not_mem_nil

end Whole

theorem toConstant_returns (hfree : ex.Free) (hready : ex.Ready state)
    (hanswers : ex.solver.solver.Answers) (hopen : Executor.Open state.toExecutionState) {e : Expr}
    (he : e.WellTyped) :
    ∃ ex' state' value, ex.toConstant state e = some (ex', state', value) ∧ ex'.Free
      ∧ state'.forkDisabled = state.forkDisabled := by
  have hsame := ConstraintManager.simplifyExpr_same hready.isBool he
  unfold toConstant
  split
  next CE hCE => exact ⟨ex, state, CE, rfl, hfree, rfl⟩
  next =>
    obtain ⟨value, σ, hvalue, hσ, heval⟩ :=
      (reliable hready hanswers hopen.satisfiable).getValue hsame.wellTyped
    have hwidth : value.width = (ConstraintManager.simplifyExpr state.constraints e).width := by
      rw [heval, hsame.wellTyped.eval_width]
    obtain ⟨x, rfl⟩ := APInt.eq_mk_of_width hwidth
    obtain ⟨y, hy⟩ := hsame.wellTyped.denotes (σ := σ) rfl
    have hden := EqExpr.create_denotes hy (denotes_const hsame.wellTyped.width_pos x)
    have hholds : (EqExpr.create (ConstraintManager.simplifyExpr state.constraints e)
        (.Constant ⟨_, x⟩)).Holds σ := by
      rw [hden.holds_iff, beq_iff_eq]
      have hyx : (⟨_, x⟩ : APInt) = ⟨_, y⟩ := heval.trans hy.2
      simpa using hyx.symm
    obtain ⟨s, hs⟩ := @Executor.addConstraint_returns ex.toExecutor state.toExecutionState _
      hready.isBool ⟨hden.1, hden.width_eq⟩ (congrFun hfree.seedMap _) ⟨σ, hσ, hholds⟩
    rw [hvalue]
    simp only [bind, Option.bind_some, hs]
    exact ⟨_, _, _, rfl, hfree, Executor.addConstraint_forkDisabled hs⟩

theorem accessAddress_returns (h : Accesses ex state view address op) (hfree : ex.Free)
    (hready : ex.Ready state) (hanswers : ex.solver.solver.Answers)
    (hopen : Executor.Open state.toExecutionState) (hconcrete : ex.MakeConcreteSymbolic = 0)
    (hchances : ∀ n, (chances n).atStaticLimit = false) :
    Forked (ex.accessAddress address (ObjectState.accessBytes op.type) op chances state random) := by
  have hbelow : Below state state := ⟨rfl, fun _ => id⟩
  obtain ⟨found, hfound, hin⟩ := resolveOne_found
    (reliable hready hanswers hopen.satisfiable) h.holds.layout h.wellTyped h.width rfl rfl
  unfold accessAddress
  rw [resolveFirst, hfound]
  simp only [bind, Option.bind_some]
  cases found with
  | none => exact accessResolved_returns h hfree hready hanswers hopen hbelow hchances
  | some o =>
    have ho := (hin.sound o rfl).1
    dsimp only
    unfold limitAddress
    split
    next =>
      obtain ⟨ex', state', value, hconstant, hfree', hdisabled⟩ :=
        toConstant_returns hfree hready hanswers hopen h.wellTyped
      have hc := toConstant_concretised hready hanswers hopen.satisfiable h.wellTyped hconstant
      have hconcrete' : ex'.MakeConcreteSymbolic = 0 := by
        rw [hc.same.rest]
        exact hconcrete
      simp only [bind, hconstant, Option.bind_some]
      exact accessFound_returns (h.concretised hc) hfree' hc.ready (hc.same.solver ▸ hanswers)
        ⟨hdisabled.trans hopen.forkDisabled, hc.possible⟩
        ⟨hc.objects, fun σ hσ => ((hc.satisfies_iff σ).mp hσ).1⟩ hchances hconcrete' ho
    next => exact accessFound_returns h hfree hready hanswers hopen hbelow hchances hconcrete ho

/-- The operation returns, and no mode decides a branch in it, where forking is free. -/
theorem executeMemoryOperation_returns (h : Accesses ex state view address op) (hfree : ex.Free)
    (hready : ex.Ready state) (hanswers : ex.solver.solver.Answers)
    (hopen : Executor.Open state.toExecutionState) (hconcrete : ex.MakeConcreteSymbolic = 0)
    (hchances : ∀ n, (chances n).atStaticLimit = false) :
    Forked (ex.executeMemoryOperation address op chances state random) := by
  unfold executeMemoryOperation
  dsimp only
  split
  next =>
    obtain ⟨haccesses, htype⟩ := h.simplify hready.isBool
    rw [← htype]
    exact accessAddress_returns haccesses hfree hready hanswers hopen hconcrete hchances
  next => exact accessAddress_returns h hfree hready hanswers hopen hconcrete hchances

end Returns

end MemoryExecutor

/-! ## The operation -/

/-- A load or a store explores the objects: each assignment that is kept belongs to exactly
one state. When the access is within an object that may be accessed, the state goes on and
that object was accessed; otherwise it was terminated with an error. -/
structure MemoryResult.Explores (r : MemoryResult) (littleEndian : Bool) (state : MemoryState)
    (view : Env → ℕ → ByteMemory) (address : Expr) (op : MemoryOperation) (n : Narrowing) :
    Prop where
  sound : ∀ x ∈ r.states, ∀ σ, Satisfies σ x.1.constraints →
    Satisfies σ state.constraints ∧ n.Keeps σ address
  one : ∀ σ, Satisfies σ state.constraints → n.Keeps σ address →
    ∃! i : Fin r.states.length, Satisfies σ (r.states.get i).1.constraints
  survives : ∀ x ∈ r.states, ∀ σ, Satisfies σ x.1.constraints → ∀ o ∈ state.objects,
    o.Within (ObjectState.address σ address) (ObjectState.accessBytes op.type) → op.Allowed o →
      x.2 = .continues ∧ Accessed littleEndian σ (view σ) state op o
        (ObjectState.address σ address - o.address) x.1
  terminated : ∀ x ∈ r.states, ∀ σ, Satisfies σ x.1.constraints →
    (¬∃ o ∈ state.objects,
      o.Within (ObjectState.address σ address) (ObjectState.accessBytes op.type) ∧ op.Allowed o) →
      x.2 = .error "memory error: out of bound pointer" "ptr.err"
        ∨ x.2 = .error "memory error: object read only" "readonly.err"

namespace MemoryExecutor

section Explores

variable {ex : MemoryExecutor} {state : MemoryState} {address : Expr} {op : MemoryOperation}
  {view : Env → ℕ → ByteMemory} {chances : ℕ → ForkChance} {random : ℕ}

theorem Accesses.explores (h : Accesses ex state view address op) {r : MemoryResult} {n : Narrowing}
    (hpart : r.Partitions (fun σ => Satisfies σ state.constraints ∧ n.Keeps σ address)
      (Outcome ex state view address op)) (hund : ∀ call ∈ r.forks, call.Undecided) :
    r.Explores ex.isLittleEndian state view address op n := by
  have hpos := accessBytes_pos h.op
  refine ⟨fun x hx σ hσ => (hpart.sound x hx σ hσ).1, fun σ hσ hkeeps => ?_,
    fun x hx σ hσ o ho hwithin hallowed => ?_, fun x hx σ hσ hnone => ?_⟩
  · obtain ⟨x, hx, hσx⟩ := hpart.covers hund σ ⟨hσ, hkeeps⟩
    obtain ⟨i, rfl⟩ := List.get_of_mem hx
    refine ⟨i, hσx, fun j hσj => ?_⟩
    rcases lt_trichotomy j i with hlt | heq | hgt
    · exact absurd hσx (List.pairwise_iff_get.mp hpart.apart j i hlt σ hσj)
    · exact heq
    · exact absurd hσj (List.pairwise_iff_get.mp hpart.apart i j hgt σ hσx)
  · have hout := (hpart.sound x hx σ hσ).2
    rw [Outcome] at hout
    generalize ObjectState.address σ address = a at hwithin hout ⊢
    cases hout with
    | @accessed p s hp hwithin' _ haccessed =>
      obtain rfl := h.holds.layout.unique ho hp (hwithin.near hpos) (hwithin'.near hpos)
      exact ⟨rfl, haccessed⟩
    | @readOnly p s hp hwithin' hnot =>
      obtain rfl := h.holds.layout.unique ho hp (hwithin.near hpos) (hwithin'.near hpos)
      exact absurd hallowed hnot
    | outOfBound hnone => exact absurd hwithin (hnone o ho)
  · have hout := (hpart.sound x hx σ hσ).2
    rw [Outcome] at hout
    cases hout with
    | @accessed p s hp hwithin hallowed _ => exact absurd ⟨p, hp, hwithin, hallowed⟩ hnone
    | readOnly _ _ _ => exact .inr rfl
    | outOfBound _ => exact .inl rfl

/-- `executeMemoryOperation` explores exactly the objects in which the access may be, up to
what the options narrow; and it returns, with forking free and no value replaced. -/
theorem executeMemoryOperation_explores (h : Accesses ex state view address op)
    (hready : ex.Ready state) (hanswers : ex.solver.solver.Answers)
    (hsat : ∃ σ, Satisfies σ state.constraints) :
    (∀ r, ex.executeMemoryOperation address op chances state random = some r →
      (∀ call ∈ r.forks, call.Undecided) →
        ∃ n : Narrowing, n.Made ex state address
          ∧ r.Explores ex.isLittleEndian state view address op n)
      ∧ (ex.Free → state.forkDisabled = false → ex.MakeConcreteSymbolic = 0 →
        (∀ i, (chances i).atStaticLimit = false) →
          ∃ r, ex.executeMemoryOperation address op chances state random = some r
            ∧ ∀ call ∈ r.forks, call.Undecided) := by
  refine ⟨fun r hr hund => ?_, fun hfree hfork hconcrete hchances => ?_⟩
  · obtain ⟨n, hmade, hpart⟩ := executeMemoryOperation_outcomes h hready hanswers hsat hr
    exact ⟨n, hmade, h.explores hpart hund⟩
  · exact executeMemoryOperation_returns h hfree hready hanswers ⟨hfork, hsat⟩ hconcrete hchances

/-- Where `--max-sym-array-size` is at most the size of every object, the address gets one
value as soon as it may be in an object. -/
theorem accessAddress_limited (h : Accesses ex state view address op) (hready : ex.Ready state)
    (hanswers : ex.solver.solver.Answers) (hlimit : ex.MaxSymArraySize ≠ 0)
    (hlarge : ∀ o ∈ state.objects, ex.MaxSymArraySize ≤ o.mo.size)
    (hfeasible : ∃ o ∈ state.objects, Feasible state.constraints address o) {r : MemoryResult}
    (haccess : ex.accessAddress address (ObjectState.accessBytes op.type) op chances state random
      = some r) :
    ∃ value, ∀ x ∈ r.states, ∀ σ, Satisfies σ x.1.constraints → address.eval σ = value := by
  have hsat : ∃ σ, Satisfies σ state.constraints := by
    obtain ⟨o, -, σ, hσ, -⟩ := hfeasible
    exact ⟨σ, hσ⟩
  obtain ⟨found, hfound, hin⟩ := resolveOne_found (reliable hready hanswers hsat)
    h.holds.layout h.wellTyped h.width rfl rfl
  cases found with
  | none =>
    obtain ⟨o, ho, hf⟩ := hfeasible
    exact absurd hf (hin.complete rfl o ho)
  | some o =>
    have ho := (hin.sound o rfl).1
    unfold accessAddress at haccess
    rw [resolveFirst, hfound] at haccess
    simp only [bind, Option.bind_some] at haccess
    rw [limitAddress, if_pos ⟨hlimit, hlarge o ho⟩] at haccess
    obtain ⟨⟨ex', state', address'⟩, hconcrete, haccess⟩ := Option.bind_eq_some_iff.mp haccess
    simp only [bind, Option.bind_eq_some_iff] at hconcrete
    obtain ⟨⟨ex₁, state₁, value⟩, hconstant, heq⟩ := hconcrete
    obtain ⟨rfl, heq'⟩ := Prod.mk.inj (Option.some.inj heq)
    obtain ⟨rfl, rfl⟩ := Prod.mk.inj heq'
    have hc := toConstant_concretised hready hanswers hsat h.wellTyped hconstant
    obtain ⟨read, -, hpart⟩ := accessFound_partitions (h.concretised hc) hc.ready
      (hc.same.solver ▸ hanswers) hc.possible
      ⟨hc.objects, fun σ hσ => ((hc.satisfies_iff σ).mp hσ).1⟩ ho haccess
    refine ⟨value, fun x hx σ hσ => ?_⟩
    exact ((hc.satisfies_iff σ).mp (hpart.sound x hx σ hσ).1.1).2

end Explores

/-! ### Loads from two objects -/

/-- The executor with an exact solver and a limit for symbolic addresses. -/
noncomputable def limitedExecutor (limit : BitVec 32) : MemoryExecutor :=
  { plainMemoryExecutor exactSolver with MaxSymArraySize := limit }

theorem free_limitedExecutor (limit : BitVec 32) : (limitedExecutor limit).Free :=
  ⟨rfl, rfl, rfl, rfl, rfl, rfl, rfl⟩

theorem ready_limitedExecutor (limit : BitVec 32) : (limitedExecutor limit).Ready twoObjects :=
  ⟨exactSolver_correct, exactSolver_widths, fun _ hc => absurd hc List.not_mem_nil⟩

/-- The objects hold zeros. -/
theorem accesses_twoObjects (limit : BitVec 32) :
    Accesses (limitedExecutor limit) twoObjects (fun _ _ _ => 0) inputPointer (.read 8) where
  holds := by
    refine ⟨layout_twoObjects, fun σ _ o ho => ?_⟩
    rcases List.mem_cons.mp ho with rfl | ho
    · exact ⟨rfl, ObjectState.ofConcrete_represents σ (by decide) none 1⟩
    · rw [List.mem_singleton.mp ho]
      exact ⟨rfl, ObjectState.ofConcrete_represents σ (by decide) none 2⟩
  op := .inr (.inl rfl)
  wellTyped := by decide
  canonical := by decide
  width := rfl

/-- A load through the pointer explores both objects. -/
theorem executeMemoryOperation_explores_twoObjects :
    ∃ r n, (limitedExecutor 0).executeMemoryOperation inputPointer (.read 8) (fun _ => ⟨false, false⟩)
        twoObjects 0 = some r
      ∧ r.Explores true twoObjects (fun _ _ _ => 0) inputPointer (.read 8) n := by
  obtain ⟨hall, hreturns⟩ := @executeMemoryOperation_explores (limitedExecutor 0) twoObjects
    inputPointer (.read 8) (fun _ _ _ => 0) (fun _ => ⟨false, false⟩) 0 (accesses_twoObjects 0)
    (ready_limitedExecutor 0) exactSolver_answers
    ⟨fun _ _ => 0, fun _ hc => absurd hc List.not_mem_nil⟩
  obtain ⟨r, hr, hund⟩ := hreturns (free_limitedExecutor 0) rfl rfl fun _ => rfl
  obtain ⟨n, -, hexplores⟩ := hall r hr hund
  exact ⟨r, n, hr, hexplores⟩

/-- With `--max-sym-array-size=1` the pointer gets one value, and an assignment under which it
has another one is in no state. -/
theorem executeMemoryOperation_loses :
    ∃ r, (limitedExecutor 1).executeMemoryOperation inputPointer (.read 8) (fun _ => ⟨false, false⟩)
        twoObjects 0 = some r
      ∧ (∀ call ∈ r.forks, call.Undecided)
      ∧ ∃ σ, Satisfies σ twoObjects.constraints
        ∧ ∀ x ∈ r.states, ¬Satisfies σ x.1.constraints := by
  have hsatisfies : ∀ σ, Satisfies σ twoObjects.constraints :=
    fun _ _ hc => absurd hc List.not_mem_nil
  obtain ⟨r, hr, hund⟩ := @executeMemoryOperation_returns (limitedExecutor 1) twoObjects
    inputPointer (.read 8) (fun _ _ _ => 0) (fun _ => ⟨false, false⟩) 0 (accesses_twoObjects 1)
    (free_limitedExecutor 1) (ready_limitedExecutor 1) exactSolver_answers
    ⟨rfl, fun _ _ => 0, hsatisfies _⟩ rfl fun _ => rfl
  obtain ⟨value, hvalue⟩ := accessAddress_limited (accesses_twoObjects 1) (ready_limitedExecutor 1)
    exactSolver_answers (by decide : (limitedExecutor 1).MaxSymArraySize ≠ 0) (by
      intro o ho
      rcases List.mem_cons.mp ho with rfl | ho
      · decide
      · rw [List.mem_singleton.mp ho]
        decide) ⟨_, List.mem_cons_self, feasible_twoObjects.1⟩ hr
  refine ⟨r, hr, hund, ?_⟩
  -- one of two values of the pointer is lost
  by_cases hzero : inputPointer.eval (fun _ _ => 0) = value
  · refine ⟨fun _ _ => 1, hsatisfies _, fun x hx hσ => ?_⟩
    have hone := (hvalue x hx _ hσ).trans hzero.symm
    exact absurd hone (by decide)
  · exact ⟨fun _ _ => 0, hsatisfies _, fun x hx hσ => hzero (hvalue x hx _ hσ)⟩

end MemoryExecutor

end Xklee
