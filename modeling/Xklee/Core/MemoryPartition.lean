/-
The assignments of a state after a load or a store.

Each assignment under which the whole access is in an object that may be accessed belongs to
one state, which goes on and in which that object was accessed; each other one belongs to one
state, which was terminated with an error. The fast path and the slow path both come to this.

Two options narrow the assignments: `--max-sym-array-size` gives the address one value, and
`--make-concrete-symbolic` makes a value that was read a new array with that value.
-/
import Xklee.Core.MemoryOperationSound

set_option autoImplicit false

namespace Xklee

/-! ## What an access does -/

namespace MemoryOperation

/-- A load of a type, or a store of an expression, that there is. -/
def Ok : MemoryOperation → Prop
  | .read type => ObjectState.IsAccessWidth type
  | .write value => ObjectState.IsAccessWidth value.width ∧ value.WellTyped

/-- A store needs a writable object. -/
def Allowed (op : MemoryOperation) (o : BoundObject) : Prop :=
  match op with
  | .read _ => True
  | .write _ => o.readOnly = false

/-- The bytes of each object after the operation at an offset of `o`: those of `o` are
overwritten by a store. -/
def after (littleEndian : Bool) (σ : Env) (op : MemoryOperation) (o : BoundObject) (offset : ℕ)
    (view : ℕ → ByteMemory) : ℕ → ByteMemory :=
  match op with
  | .read _ => view
  | .write value => Function.update view o.address
      (ObjectState.storeValue littleEndian (view o.address) offset (value.eval σ))

end MemoryOperation

/-- What `getWriteable` and the flushing of a load keep of an object. -/
def BoundObject.key (o : BoundObject) : MemoryObject × Bool := (o.mo, o.readOnly)

/-- The objects hold the bytes of `view`, by their addresses. -/
def Shows (σ : Env) (view : ℕ → ByteMemory) (objects : List BoundObject) : Prop :=
  ∀ o ∈ objects, o.os.size = o.mo.size.toNat ∧ o.os.Represents σ (view o.address)

/-- `s` is `parent` after the operation at an offset of `o`: there are the same objects, with
the same bytes but for those that are stored; and what was loaded are the bytes of `o`. -/
structure Accessed (littleEndian : Bool) (σ : Env) (view : ℕ → ByteMemory) (parent : MemoryState)
    (op : MemoryOperation) (o : BoundObject) (offset : ℕ) (s : MemoryState) : Prop where
  objects : s.objects.map BoundObject.key = parent.objects.map BoundObject.key
  bytes : Shows σ (op.after littleEndian σ o offset view) s.objects
  loaded : ∀ type, op = .read type → ∃ e, s.target = some e
    ∧ HasValue σ e (ObjectState.loadValue littleEndian (view o.address) offset type)

/-- What becomes of an assignment under which the address is `a`. -/
inductive AccessOutcome (littleEndian : Bool) (σ : Env) (view : ℕ → ByteMemory)
    (parent : MemoryState) (op : MemoryOperation) (a : ℕ) : MemoryState × Ending → Prop
  | accessed {o : BoundObject} {s : MemoryState} (ho : o ∈ parent.objects)
      (hwithin : o.Within a (ObjectState.accessBytes op.type)) (hallowed : op.Allowed o)
      (h : Accessed littleEndian σ view parent op o (a - o.address) s) :
      AccessOutcome littleEndian σ view parent op a (s, .continues)
  | readOnly {o : BoundObject} {s : MemoryState} (ho : o ∈ parent.objects)
      (hwithin : o.Within a (ObjectState.accessBytes op.type)) (hnot : ¬op.Allowed o) :
      AccessOutcome littleEndian σ view parent op a
        (s, .error "memory error: object read only" "readonly.err")
  | outOfBound {s : MemoryState}
      (hnone : ∀ o ∈ parent.objects, ¬o.Within a (ObjectState.accessBytes op.type)) :
      AccessOutcome littleEndian σ view parent op a
        (s, .error "memory error: out of bound pointer" "ptr.err")

/-- The objects of a state: where they are, and what they hold. -/
structure MemoryState.Holds (state : MemoryState) (pointerWidth : ℕ)
    (view : Env → ℕ → ByteMemory) : Prop where
  layout : Layout pointerWidth state.objects
  shows : ∀ σ, Satisfies σ state.constraints → Shows σ (view σ) state.objects

namespace MemoryExecutor

section Access

variable {ex ex' : MemoryExecutor} {parent b s : MemoryState} {o : BoundObject}
  {offset address : Expr} {op : MemoryOperation} {ending : Ending}
  {replace : MemoryState → Expr → Option (MemoryExecutor × MemoryState × Expr)}

/-- The ways through `access`. -/
theorem access_cases (h : ex.access b o offset op replace = some (ex', s, ending)) :
    (¬op.Allowed o ∧ ex.SameMemory ex' ∧ s = b
        ∧ ending = .error "memory error: object read only" "readonly.err")
      ∨ (∃ value os, op = .write value ∧ o.readOnly = false
          ∧ o.os.write ex.isLittleEndian offset value = some os ∧ ex' = ex
          ∧ s = b.bindObject { o with os := os } ∧ ending = .continues)
      ∨ ∃ type result os b' result', op = .read type
          ∧ o.os.read ex.isLittleEndian offset type = some (result, os)
          ∧ replace (b.bindObject { o with os := os }) result = some (ex', b', result')
          ∧ s = b'.bindLocal result' ∧ ending = .continues := by
  unfold access at h
  cases op with
  | write value =>
    dsimp only at h
    by_cases hro : o.readOnly = true
    · rw [if_pos hro] at h
      obtain ⟨rfl, rfl, rfl⟩ := Option.some.inj h
      refine .inl ⟨fun hallowed => ?_, ?_, rfl, rfl⟩
      · exact absurd (hro.symm.trans hallowed) (by simp)
      · exact terminateStateOnError_same ex b "memory error: object read only" "readonly.err"
    · rw [if_neg hro] at h
      simp only [bind, Option.bind_eq_some_iff] at h
      obtain ⟨os, hos, heq⟩ := h
      obtain ⟨rfl, rfl, rfl⟩ := Option.some.inj heq
      exact .inr (.inl ⟨value, os, rfl, by simpa using hro, hos, rfl, rfl, rfl⟩)
  | read type =>
    simp only [bind, Option.bind_eq_some_iff] at h
    obtain ⟨⟨result, os⟩, hread, ⟨ex₁, b', result'⟩, hreplace, heq⟩ := h
    obtain ⟨rfl, rfl, rfl⟩ := Option.some.inj heq
    exact .inr (.inr ⟨type, result, os, b', result', rfl, hread, hreplace, rfl, rfl⟩)

variable {pointerWidth : ℕ}

/-- Rebinding an object to another object state. -/
theorem bindObject_objects (hlayout : Layout pointerWidth b.objects) (ho : o ∈ b.objects)
    (os : ObjectState) :
    (b.bindObject { o with os := os }).objects
      = b.objects.map fun p => if p.address = o.address then { o with os := os } else p :=
  KeyedList.alter_replace hlayout.sorted ho _

theorem bindObject_key (hlayout : Layout pointerWidth b.objects) (ho : o ∈ b.objects)
    (os : ObjectState) :
    (b.bindObject { o with os := os }).objects.map BoundObject.key
      = b.objects.map BoundObject.key := by
  rw [bindObject_objects hlayout ho, List.map_map]
  refine List.map_congr_left fun p hp => ?_
  by_cases hkey : p.address = o.address
  · rw [Function.comp_apply, if_pos hkey, hlayout.eq_of_address hp ho hkey]
    rfl
  · rw [Function.comp_apply, if_neg hkey]

/-- The bytes after the object state has changed. -/
theorem shows_bindObject (hlayout : Layout pointerWidth b.objects) (ho : o ∈ b.objects) {σ : Env}
    {view : ℕ → ByteMemory} (hshows : Shows σ view b.objects) {os : ObjectState} {m : ByteMemory}
    (hos : os.Represents σ m) (hsize : os.size = o.os.size) :
    Shows σ (Function.update view o.address m) (b.bindObject { o with os := os }).objects := by
  rw [bindObject_objects hlayout ho]
  intro p hp
  obtain ⟨q, hq, rfl⟩ := List.mem_map.mp hp
  by_cases hkey : q.address = o.address
  · rw [if_pos hkey]
    refine ⟨hsize.trans (hshows o ho).1, ?_⟩
    have hview : Function.update view o.address m ({ o with os := os } : BoundObject).address = m :=
      Function.update_self _ _ _
    rw [hview]
    exact hos
  · rw [if_neg hkey, Function.update_of_ne hkey]
    exact hshows q hq

/-- What may replace a value that was loaded: the value itself, or an expression that a new
constraint makes equal to it. -/
structure Replaced (state : MemoryState) (e : Expr) (read : Option (Expr × Expr))
    (state' : MemoryState) (e' : Expr) : Prop where
  objects : state'.objects = state.objects
  satisfies_iff : ∀ σ, Satisfies σ state'.constraints
    ↔ Satisfies σ state.constraints ∧ ∀ p ∈ read, p.1.eval σ = p.2.eval σ
  hasValue : ∀ σ, Satisfies σ state'.constraints → ∀ v, HasValue σ e v → HasValue σ e' v

theorem Replaced.refl (state : MemoryState) (e : Expr) : Replaced state e none state e :=
  ⟨rfl, fun σ => (and_iff_left fun p hp => absurd hp (by simp)).symm, fun _ _ _ => id⟩

section Offset

variable {pointerWidth : ℕ} {objects : List BoundObject} (hlayout : Layout pointerWidth objects)
  (ho : o ∈ objects) (htyped : address.WellTyped) (hwidth : address.width = pointerWidth)

include hlayout ho htyped hwidth

/-- The offset of an address that is not before the object. -/
theorem address_getOffsetExpr {σ : Env} (hle : o.address ≤ ObjectState.address σ address) :
    ObjectState.address σ (o.mo.getOffsetExpr pointerWidth address)
      = ObjectState.address σ address - o.address := by
  obtain ⟨x, hx, hxa⟩ := MemoryObject.exists_denotes htyped hwidth σ
  rw [← hxa] at hle ⊢
  rw [ObjectState.address, (MemoryObject.getOffsetExpr_denotes o htyped hwidth hx).2]
  exact MemoryObject.offset_toNat hlayout ho hle

omit hlayout ho in
variable (o) in
/-- Offsets are as object states expect them. -/
theorem getOffsetExpr_ok (hcanonical : address.Canonical) :
    ObjectState.OffsetOk (o.mo.getOffsetExpr pointerWidth address) := by
  obtain ⟨x, hx, -⟩ := MemoryObject.exists_denotes htyped hwidth fun _ _ => 0
  refine ⟨(MemoryObject.getOffsetExpr_denotes o htyped hwidth hx).1, ?_⟩
  exact SubExpr.create_canonical hcanonical trivial

end Offset

/-- A state with the objects of `parent` and some of its assignments. -/
structure Below (parent s : MemoryState) : Prop where
  objects : s.objects = parent.objects
  sound : ∀ σ, Satisfies σ s.constraints → Satisfies σ parent.constraints

section Spec

variable {view : Env → ℕ → ByteMemory} (hholds : parent.Holds ex.pointerWidth view)
  (hop : op.Ok) (htyped : address.WellTyped) (hcanonical : address.Canonical)
  (hwidth : address.width = ex.pointerWidth) (hbelow : Below parent b)
  (ho : o ∈ parent.objects)

include hholds hop htyped hcanonical hwidth hbelow ho

/-- An access within the object does what it should. -/
theorem access_outcome {P : Option (Expr × Expr) → Prop} (hnone : P none)
    (hreplace : ∀ {type st e ex₁ st' e'}, op = .read type → st.constraints = b.constraints →
      replace st e = some (ex₁, st', e') → ∃ read, P read ∧ Replaced st e read st' e')
    (h : ex.access b o (o.mo.getOffsetExpr ex.pointerWidth address) op replace
      = some (ex', s, ending)) :
    ∃ read, P read
      ∧ (∀ σ, Satisfies σ s.constraints
        ↔ Satisfies σ b.constraints ∧ ∀ p ∈ read, p.1.eval σ = p.2.eval σ)
      ∧ ∀ σ, Satisfies σ s.constraints →
        o.Within (ObjectState.address σ address) (ObjectState.accessBytes op.type) →
        AccessOutcome ex.isLittleEndian σ (view σ) parent op (ObjectState.address σ address)
          (s, ending) := by
  have hok := getOffsetExpr_ok o htyped hwidth hcanonical
  have hnothing : ∀ σ, Satisfies σ b.constraints
      ↔ Satisfies σ b.constraints ∧ ∀ p ∈ (none : Option (Expr × Expr)), p.1.eval σ = p.2.eval σ :=
    fun σ => (and_iff_left fun p hp => absurd hp (by simp)).symm
  have hlayout : Layout ex.pointerWidth b.objects := hbelow.objects ▸ hholds.layout
  have hob : o ∈ b.objects := hbelow.objects ▸ ho
  have hshows : ∀ σ, Satisfies σ b.constraints → Shows σ (view σ) b.objects := fun σ hσ =>
    hbelow.objects ▸ hholds.shows σ (hbelow.sound σ hσ)
  -- the offset under an assignment, and that the access does not leave the object state
  have hoffset : ∀ σ, Satisfies σ b.constraints →
      o.Within (ObjectState.address σ address) (ObjectState.accessBytes op.type) →
      ObjectState.address σ (o.mo.getOffsetExpr ex.pointerWidth address)
          = ObjectState.address σ address - o.address
        ∧ ObjectState.address σ address - o.address + ObjectState.accessBytes op.type
          ≤ o.os.size := by
    intro σ hσ hwithin
    refine ⟨address_getOffsetExpr hholds.layout ho htyped hwidth hwithin.1, ?_⟩
    rw [(hshows σ hσ o hob).1]
    have hle := hwithin.1
    have hend := hwithin.2
    omega
  rcases access_cases h with ⟨hnot, -, rfl, rfl⟩ | ⟨value, os, rfl, hro, hwrite, -, rfl, rfl⟩
    | ⟨type, result, os, b', result', rfl, hread, hrep, rfl, rfl⟩
  · exact ⟨none, hnone, hnothing, fun σ hσ hwithin => .readOnly ho hwithin hnot⟩
  · refine ⟨none, hnone, hnothing, fun σ hσ hwithin => .accessed ho hwithin hro ?_⟩
    have hσb : Satisfies σ b.constraints := hσ
    obtain ⟨hsame, hbound⟩ := hoffset σ hσb hwithin
    obtain ⟨os', hos', hrepresents, hsize⟩ := ObjectState.write_leaves ex.isLittleEndian
      (hshows σ hσb o hob).2 hop.2 hop.1 hok (hsame.symm ▸ hbound)
    obtain rfl : os' = os := Option.some.inj (hos'.symm.trans hwrite)
    rw [hsame] at hrepresents
    refine ⟨?_, shows_bindObject hlayout hob (hshows σ hσb) hrepresents hsize, ?_⟩
    · rw [bindObject_key hlayout hob, hbelow.objects]
    · exact fun type htype => absurd htype (by simp)
  · obtain ⟨read, hP, hreplaced⟩ :=
      @hreplace type (b.bindObject { o with os := os }) result ex' b' result' rfl rfl hrep
    refine ⟨read, hP, hreplaced.satisfies_iff, fun σ hσ hwithin => .accessed ho hwithin trivial ?_⟩
    have hσb : Satisfies σ b.constraints := ((hreplaced.satisfies_iff σ).mp hσ).1
    obtain ⟨hsame, hbound⟩ := hoffset σ hσb hwithin
    obtain ⟨e, os', hos', hvalue, hrepresents, hsize⟩ := ObjectState.read_returns ex.isLittleEndian
      (hshows σ hσb o hob).2 hop hok (hsame.symm ▸ hbound)
    obtain ⟨rfl, rfl⟩ := Prod.mk.inj (Option.some.inj (hos'.symm.trans hread))
    rw [hsame] at hvalue
    have hbytes := shows_bindObject hlayout hob (hshows σ hσb) hrepresents hsize
    rw [Function.update_eq_self] at hbytes
    have hobjects : (b'.bindLocal result').objects = (b.bindObject { o with os := os' }).objects :=
      hreplaced.objects
    refine ⟨?_, ?_, fun type' htype => ⟨result', rfl, ?_⟩⟩
    · rw [hobjects, bindObject_key hlayout hob, hbelow.objects]
    · rw [hobjects]
      exact hbytes
    · obtain rfl := MemoryOperation.read.inj htype
      exact hreplaced.hasValue σ hσ _ hvalue

variable (replace) in
/-- An access in a state with an assignment under which it is within the object returns. -/
theorem access_returns {σ : Env} (hσ : Satisfies σ b.constraints)
    (hwithin : o.Within (ObjectState.address σ address) (ObjectState.accessBytes op.type))
    (hreplace : ∀ st e, (replace st e).isSome = true) :
    ∃ x, ex.access b o (o.mo.getOffsetExpr ex.pointerWidth address) op replace = some x := by
  have hok := getOffsetExpr_ok o htyped hwidth hcanonical
  have hsame := address_getOffsetExpr hholds.layout ho htyped hwidth hwithin.1
  obtain ⟨hsize, hrepresents⟩ := hholds.shows σ (hbelow.sound σ hσ) o ho
  have hbound : ObjectState.address σ (o.mo.getOffsetExpr ex.pointerWidth address)
      + ObjectState.accessBytes op.type ≤ o.os.size := by
    rw [hsame, hsize]
    have hle := hwithin.1
    have hend := hwithin.2
    omega
  unfold access
  cases op with
  | write value =>
    dsimp only
    by_cases hro : o.readOnly = true
    · exact ⟨_, if_pos hro⟩
    · obtain ⟨os, hos, -, -⟩ :=
        ObjectState.write_leaves ex.isLittleEndian hrepresents hop.2 hop.1 hok hbound
      rw [if_neg hro, hos]
      exact ⟨_, rfl⟩
  | read type =>
    obtain ⟨e, os, hos, -, -, -⟩ :=
      ObjectState.read_returns ex.isLittleEndian hrepresents hop hok hbound
    obtain ⟨x, hx⟩ := Option.isSome_iff_exists.mp (hreplace (b.bindObject { o with os := os }) e)
    dsimp only
    rw [hos]
    simp only [bind, Option.bind_some, hx]
    exact ⟨_, rfl⟩

end Spec

end Access

end MemoryExecutor

/-! ## The slow path -/

/-- The states of a result partition the assignments in `P`, as long as no mode decides a
branch, and `Q` says what has become of each. -/
structure MemoryResult.Partitions (r : MemoryResult) (P : Env → Prop)
    (Q : Env → MemoryState × Ending → Prop) : Prop where
  sound : ∀ x ∈ r.states, ∀ σ, Satisfies σ x.1.constraints → P σ ∧ Q σ x
  apart : r.states.Pairwise fun x y => ∀ σ, Satisfies σ x.1.constraints →
    ¬Satisfies σ y.1.constraints
  covers : (∀ call ∈ r.forks, call.Undecided) → ∀ σ, P σ →
    ∃ x ∈ r.states, Satisfies σ x.1.constraints

namespace MemoryResult.Partitions

variable {r : MemoryResult} {P P' : Env → Prop} {Q Q' : Env → MemoryState × Ending → Prop}

/-- One state that has all the assignments. -/
theorem single {ex : MemoryExecutor} {x : MemoryState × Ending} {forks : List ForkCall}
    (hiff : ∀ σ, Satisfies σ x.1.constraints ↔ P σ)
    (hout : ∀ σ, Satisfies σ x.1.constraints → Q σ x) : Partitions ⟨ex, [x], forks⟩ P Q where
  sound y hy σ hσ := by
    rw [List.mem_singleton.mp hy] at hσ ⊢
    exact ⟨(hiff σ).mp hσ, hout σ hσ⟩
  apart := List.pairwise_singleton _ _
  covers _ σ hσ := ⟨x, List.mem_singleton_self x, (hiff σ).mpr hσ⟩

theorem congr (h : Partitions r P Q) (hP : ∀ σ, P σ ↔ P' σ) (hQ : ∀ σ x, P σ → Q σ x → Q' σ x) :
    Partitions r P' Q' where
  sound x hx σ hσ :=
    have h' := h.sound x hx σ hσ
    ⟨(hP σ).mp h'.1, hQ σ x h'.1 h'.2⟩
  apart := h.apart
  covers hund σ hσ := h.covers hund σ ((hP σ).mpr hσ)

end MemoryResult.Partitions

namespace MemoryExecutor

section Each

variable {ex₀ ex : MemoryExecutor} {parent unbound : MemoryState} {address : Expr}
  {op : MemoryOperation} {view : Env → ℕ → ByteMemory} {chances : ℕ → ForkChance}
  {r : MemoryResult}

/-- What holds of an access: the objects and their bytes, and that the operation and the
address are such as the executor makes them. -/
structure Accesses (ex : MemoryExecutor) (parent : MemoryState) (view : Env → ℕ → ByteMemory)
    (address : Expr) (op : MemoryOperation) : Prop where
  holds : parent.Holds ex.pointerWidth view
  op : op.Ok
  wellTyped : address.WellTyped
  canonical : address.Canonical
  width : address.width = ex.pointerWidth

theorem accessBytes_pos {op : MemoryOperation} (hop : op.Ok) :
    0 < ObjectState.accessBytes op.type := by
  have hwidth : ObjectState.IsAccessWidth op.type := by
    cases op with
    | read type => exact hop
    | write value => exact hop.1
  rcases hwidth with h | h | h | h | h
  all_goals
    rw [h]
    decide

variable {ex' : MemoryExecutor} {o : BoundObject}

theorem Accesses.of_same (h : Accesses ex parent view address op) (hsame : ex.SameMemory ex') :
    Accesses ex' parent view address op := by
  obtain ⟨hrest, -⟩ := hsame
  rw [hrest]
  exact ⟨h.holds, h.op, h.wellTyped, h.canonical, h.width⟩

/-- The outcome of an assignment of `parent`. -/
def Outcome (ex : MemoryExecutor) (parent : MemoryState) (view : Env → ℕ → ByteMemory)
    (address : Expr) (op : MemoryOperation) (σ : Env) (x : MemoryState × Ending) : Prop :=
  AccessOutcome ex.isLittleEndian σ (view σ) parent op (ObjectState.address σ address) x

theorem outcome_of_same (hsame : ex.SameMemory ex') :
    Outcome ex' parent view address op = Outcome ex parent view address op := by
  rw [hsame.rest]
  rfl

/-- The bounds check of the loop. -/
theorem boundsCheck_isBool (h : Accesses ex parent view address op) (ho : o ∈ parent.objects) :
    (o.mo.getBoundsCheckPointerBytes ex.pointerWidth address
      (ObjectState.accessBytes op.type)).IsBool := by
  have hden := MemoryObject.boundsCheckBytes_denotes h.holds.layout ho h.wellTyped h.width
    (accessBytes_pos h.op) fun _ _ => 0
  exact ⟨hden.1, hden.2.1⟩

theorem holds_boundsCheck (h : Accesses ex parent view address op) (ho : o ∈ parent.objects)
    (σ : Env) :
    (o.mo.getBoundsCheckPointerBytes ex.pointerWidth address
      (ObjectState.accessBytes op.type)).Holds σ
      ↔ o.Within (ObjectState.address σ address) (ObjectState.accessBytes op.type) :=
  (MemoryObject.boundsCheckBytes_denotes h.holds.layout ho h.wellTyped h.width
    (accessBytes_pos h.op) σ).2.2

/-- The part of the loop in the state in which the access is within the object. -/
theorem accessBound_sound (h : Accesses ex parent view address op) (ho : o ∈ parent.objects)
    {first : Option MemoryState}
    (hfirst : ∀ s, first = some s → Below parent s ∧ ∀ σ, Satisfies σ s.constraints →
      o.Within (ObjectState.address σ address) (ObjectState.accessBytes op.type))
    {states : List (MemoryState × Ending)}
    (heq : ex.accessBound address op o first = some (ex', states)) :
    ex.SameMemory ex'
      ∧ (∀ x ∈ states, ∃ s, first = some s
        ∧ ∀ σ, Satisfies σ x.1.constraints → Satisfies σ s.constraints
          ∧ Outcome ex parent view address op σ x)
      ∧ states.length ≤ 1
      ∧ ∀ s, first = some s → ∃ x ∈ states, ∀ σ, Satisfies σ s.constraints →
        Satisfies σ x.1.constraints := by
  cases hfirst' : first with
  | none =>
    rw [hfirst', accessBound] at heq
    obtain ⟨rfl, rfl⟩ := Prod.mk.inj (Option.some.inj heq)
    refine ⟨.refl ex, fun x hx => absurd hx List.not_mem_nil, Nat.zero_le _, ?_⟩
    exact fun s hs => absurd hs (by simp)
  | some bound =>
    rw [hfirst', accessBound] at heq
    obtain ⟨⟨ex₁, s, ending⟩, haccess, heq⟩ := Option.map_eq_some_iff.mp heq
    obtain ⟨rfl, rfl⟩ := Prod.mk.inj heq
    obtain ⟨hbelow, hwithin⟩ := hfirst bound hfirst'
    have hsame : ex.SameMemory ex₁ := by
      rcases access_cases haccess with ⟨-, hsame, -⟩ | ⟨_, _, -, -, -, rfl, -⟩
        | ⟨_, _, _, _, _, -, -, hrep, -⟩
      · exact hsame
      · exact .refl _
      · obtain ⟨rfl, -⟩ := Prod.mk.inj (Option.some.inj hrep)
        exact .refl _
    obtain ⟨read, rfl, hiff, hout⟩ := access_outcome h.holds h.op h.wellTyped h.canonical h.width
      hbelow ho (P := fun read => read = none) rfl
      (fun {type st e ex₁ st' e'} _ _ hrep => by
        obtain ⟨-, hrep⟩ := Prod.mk.inj (Option.some.inj hrep)
        obtain ⟨rfl, rfl⟩ := Prod.mk.inj hrep
        exact ⟨none, rfl, .refl _ _⟩) haccess
    refine ⟨hsame, fun x hx => ⟨bound, rfl, fun σ hσ => ?_⟩, le_rfl, fun s' hs' => ?_⟩
    · rw [List.mem_singleton.mp hx] at hσ ⊢
      have hσb := ((hiff σ).mp hσ).1
      exact ⟨hσb, hout σ hσ (hwithin σ hσb)⟩
    · obtain rfl := Option.some.inj hs'
      refine ⟨(s, ending), List.mem_singleton_self _, fun σ hσ => ?_⟩
      exact (hiff σ).mpr ⟨hσ, fun p hp => absurd hp (by simp)⟩

/-- The loop. Each object takes the assignments under which the access is within it from the
state that is left over. -/
theorem accessEach_partitions (h : Accesses ex parent view address op)
    (hready : ex.Ready unbound) (hbelow : Below parent unbound) {rl : List BoundObject}
    (hrl : ∀ o ∈ rl, o ∈ parent.objects)
    (hrest : ∀ σ, Satisfies σ unbound.constraints → ∀ o ∈ parent.objects,
      o.Within (ObjectState.address σ address) (ObjectState.accessBytes op.type) → o ∈ rl)
    {n : ℕ} (heach : accessEach address (ObjectState.accessBytes op.type) op chances false n ex
      unbound rl = some r) :
    r.Partitions (fun σ => Satisfies σ unbound.constraints) (Outcome ex parent view address op) := by
  induction rl generalizing ex unbound n r with
  | nil =>
    obtain rfl := Option.some.inj heach
    refine .single (fun σ => Iff.rfl) fun σ hσ => .outOfBound fun o ho hwithin => ?_
    exact absurd (hrest σ hσ o ho hwithin) List.not_mem_nil
  | cons o rl ih =>
    obtain ⟨ho, hrl⟩ := List.forall_mem_cons.mp hrl
    simp only [accessEach, bind, Option.bind_eq_some_iff] at heach
    obtain ⟨branches, hfork, ⟨ex₁, states⟩, hbound, heach⟩ := heach
    have hsplits := forkState_splits hready (boundsCheck_isBool h ho) hfork
    have hsame := hsplits.executor
    have hfirst : ∀ s, branches.first = some s → Below parent s ∧ ∀ σ, Satisfies σ s.constraints →
        o.Within (ObjectState.address σ address) (ObjectState.accessBytes op.type) := by
      intro s hs
      have hside := hsplits.first s hs
      refine ⟨⟨hside.objects.trans hbelow.objects, fun σ hσ => ?_⟩, fun σ hσ => ?_⟩
      · exact hbelow.sound σ (hside.sound σ hσ).1
      · exact (holds_boundsCheck h ho σ).mp (hside.sound σ hσ).2
    obtain ⟨hsame₁, hstates, hone, hcovered⟩ := accessBound_sound (h.of_same hsame) ho hfirst hbound
    rw [outcome_of_same hsame] at hstates
    -- the states of this object have assignments of the first branch only
    have hin : ∀ x ∈ states, ∀ σ, Satisfies σ x.1.constraints →
        (Satisfies σ unbound.constraints ∧ Outcome ex parent view address op σ x)
          ∧ o.Within (ObjectState.address σ address) (ObjectState.accessBytes op.type) := by
      intro x hx σ hσ
      obtain ⟨s, hs, hall⟩ := hstates x hx
      obtain ⟨hσs, hout⟩ := hall σ hσ
      exact ⟨⟨((hsplits.first s hs).sound σ hσs).1, hout⟩, (hfirst s hs).2 σ hσs⟩
    have hpair : states.Pairwise fun x y => ∀ σ, Satisfies σ x.1.constraints →
        ¬Satisfies σ y.1.constraints := by
      match states, hone with
      | [], _ => exact .nil
      | [x], _ => exact List.pairwise_singleton _ _
    cases hsecond : branches.second with
    | none =>
      rw [hsecond] at heach
      obtain rfl := Option.some.inj heach
      refine ⟨fun x hx σ hσ => (hin x hx σ hσ).1, hpair, fun hund σ hσ => ?_⟩
      obtain ⟨s, hs, hσs⟩ := hsplits.covers (hund _ (List.mem_singleton_self _)) σ hσ
      rw [hsecond] at hs
      obtain ⟨x, hx, hall⟩ := hcovered s (hs.resolve_right (by simp))
      exact ⟨x, hx, hall σ hσs⟩
    | some unbound' =>
      rw [hsecond] at heach
      obtain ⟨r', hr', rfl⟩ := Option.map_eq_some_iff.mp heach
      have hside := hsplits.second unbound' hsecond
      have hall := hsame.trans hsame₁
      have hout : ∀ σ, Satisfies σ unbound'.constraints →
          ¬o.Within (ObjectState.address σ address) (ObjectState.accessBytes op.type) :=
        fun σ hσ => fun hw => (hside.sound σ hσ).2 ((holds_boundsCheck h ho σ).mpr hw)
      have hr := ih (h.of_same hall) (hside.ready.of_same hsame₁)
        ⟨hside.objects.trans hbelow.objects, fun σ hσ => hbelow.sound σ (hside.sound σ hσ).1⟩ hrl
        (fun σ hσ p hp hw => by
          have hp' := hrest σ (hside.sound σ hσ).1 p hp hw
          refine (List.mem_cons.mp hp').resolve_left fun heq => ?_
          exact hout σ hσ (heq ▸ hw)) hr'
      rw [outcome_of_same hall] at hr
      refine ⟨fun x hx σ hσ => ?_, List.pairwise_append.mpr ⟨hpair, hr.apart, ?_⟩,
        fun hund σ hσ => ?_⟩
      · rcases List.mem_append.mp hx with hx | hx
        · exact (hin x hx σ hσ).1
        · have h' := hr.sound x hx σ hσ
          exact ⟨(hside.sound σ h'.1).1, h'.2⟩
      · intro x hx y hy σ hσx hσy
        exact hout σ (hr.sound y hy σ hσy).1 (hin x hx σ hσx).2
      · obtain ⟨hcall, hund⟩ := List.forall_mem_cons.mp hund
        obtain ⟨s, hs, hσs⟩ := hsplits.covers hcall σ hσ
        rcases hs with hs | hs
        · obtain ⟨x, hx, hall⟩ := hcovered s hs
          exact ⟨x, List.mem_append_left _ hx, hall σ hσs⟩
        · obtain rfl := Option.some.inj (hsecond.symm.trans hs)
          obtain ⟨x, hx, hσx⟩ := hr.covers hund σ hσs
          exact ⟨x, List.mem_append_right _ hx, hσx⟩

end Each

end MemoryExecutor

end Xklee
