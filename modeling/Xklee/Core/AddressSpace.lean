/-
Copy-on-write: `lib/Core/AddressSpace.cpp`, with the copies that states make of their
address spaces.

The object states live in a heap and are named by their place in it; an address space
maps memory objects, ordered by their addresses, to object states. A system is the heap
with every address space there is, so that what one of them does to the others can be
said. What an object state holds besides its owner is a parameter, since every way of
writing to it is covered. Objects that nothing refers to stay in the heap.
-/
import Mathlib.Algebra.Order.Ring.Int
import Xklee.ADT.ImmutableMap

set_option autoImplicit false

namespace Xklee

/-- An object state: its owner, and all that is written through it. -/
structure HeapObject (α : Type) where
  copyOnWriteOwner : BitVec 32
  readOnly : Bool
  contents : α

/-- The copy constructor, without its assertion. -/
def HeapObject.copy {α : Type} (os : HeapObject α) : HeapObject α where
  copyOnWriteOwner := 0
  readOnly := false
  contents := os.contents

structure AddressSpace (K : Type) [LinearOrder K] where
  cowKey : BitVec 32
  objects : ImmutableMap K ℕ

namespace AddressSpace

variable {K : Type} {α : Type} [LinearOrder K]

/-- `AddressSpace()` -/
def new : AddressSpace K := ⟨1, .empty⟩

/-- The copy constructor `AddressSpace(b)`: `b` afterwards, and the copy. -/
def copy (b : AddressSpace K) : AddressSpace K × AddressSpace K :=
  let b := { b with cowKey := b.cowKey + 1 }
  (b, ⟨b.cowKey, b.objects⟩)

def findObject (space : AddressSpace K) (mo : K) : Option ℕ := space.objects.lookup mo

variable [Inhabited K]

/-- `bindObject(mo, os)`, with `none` for the failing assertion. -/
def bindObject (space : AddressSpace K) (heap : List (HeapObject α)) (mo : K) (os : ℕ) :
    Option (AddressSpace K × List (HeapObject α)) :=
  match heap[os]? with
  | none => none
  | some object =>
      if object.copyOnWriteOwner = 0 then
        some ({ space with objects := space.objects.replace (mo, os) },
          heap.set os { object with copyOnWriteOwner := space.cowKey })
      else none

def unbindObject (space : AddressSpace K) (mo : K) : AddressSpace K :=
  { space with objects := space.objects.remove mo }

/-- `getWriteable(mo, os)`: the object state to write to. -/
def getWriteable (space : AddressSpace K) (heap : List (HeapObject α)) (mo : K) (os : ℕ) :
    Option (ℕ × AddressSpace K × List (HeapObject α)) :=
  match heap[os]? with
  | none => none
  | some object =>
      if object.readOnly then none
      else if space.cowKey = object.copyOnWriteOwner then some (os, space, heap)
      else
        let n := heap.length
        some (n, { space with objects := space.objects.replace (mo, n) },
          heap ++ [{ object.copy with copyOnWriteOwner := space.cowKey }])

/-- What `getWriteable` gives: the object state itself or a copy at a new place, bound in
its place; what was in the heap stays. -/
theorem getWriteable_spec {space space' : AddressSpace K}
    {heap heap' : List (HeapObject α)} {mo : K} {os wos : ℕ} (hfind : space.findObject mo = some os)
    (h : space.getWriteable heap mo os = some (wos, space', heap')) :
    space'.findObject = Function.update space.findObject mo (some wos)
      ∧ (∃ object written : HeapObject α, heap[os]? = some object ∧ heap'[wos]? = some written
          ∧ written.contents = object.contents)
      ∧ (∀ (k : ℕ) (object : HeapObject α), heap[k]? = some object → heap'[k]? = some object)
      ∧ (wos = os ∨ wos = heap.length) := by
  rw [getWriteable] at h
  cases hobject : heap[os]? with
  | none =>
    rw [hobject] at h
    exact absurd h (by simp)
  | some object =>
    rw [hobject] at h
    obtain ⟨-, h⟩ := (Option.ite_none_left_eq_some).mp h
    by_cases howner : space.cowKey = object.copyOnWriteOwner
    · rw [if_pos howner, Option.some.injEq, Prod.mk.injEq, Prod.mk.injEq] at h
      obtain ⟨rfl, rfl, rfl⟩ := h
      refine ⟨?_, ⟨object, object, rfl, hobject, rfl⟩, fun _ _ => id, .inl rfl⟩
      rw [← hfind, Function.update_eq_self]
    · rw [if_neg howner, Option.some.injEq, Prod.mk.injEq, Prod.mk.injEq] at h
      obtain ⟨rfl, rfl, rfl⟩ := h
      refine ⟨space.objects.lookup_replace mo _, ⟨object, _, rfl, List.getElem?_concat_length, rfl⟩,
        fun k object' hk => ?_, .inr rfl⟩
      have hlt : k < heap.length := (List.getElem?_eq_some_iff.mp hk).1
      rwa [List.getElem?_append_left hlt]

end AddressSpace

/-! ## Systems -/

/-- The heap and the address spaces; one that was destroyed is `none`. -/
structure AddressSpaces (K : Type) [LinearOrder K] (α : Type) where
  heap : List (HeapObject α)
  spaces : List (Option (AddressSpace K))

/-- What a state can do with its address space. An object state is built with some
contents; a write goes through `getWriteable` on the current binding. -/
inductive SpaceCall (K : Type) (α : Type)
  | newObject (contents : α) (readOnly : Bool)
  | bindObject (space : ℕ) (mo : K) (os : ℕ)
  | unbindObject (space : ℕ) (mo : K)
  | write (space : ℕ) (mo : K) (f : α → α)
  | copy (space : ℕ)
  | destroy (space : ℕ)

namespace AddressSpaces

variable {K : Type} {α : Type} [LinearOrder K]

/-- One empty address space. -/
def init : AddressSpaces K α := ⟨[], [some .new]⟩

def space (s : AddressSpaces K α) (i : ℕ) : Option (AddressSpace K) := s.spaces[i]?.join

/-- The object state of a memory object in an address space. -/
def find (s : AddressSpaces K α) (i : ℕ) (mo : K) : Option ℕ :=
  (s.space i).bind fun space => space.findObject mo

/-- What an address space observes of a memory object. -/
def observe (s : AddressSpaces K α) (i : ℕ) (mo : K) : Option α :=
  ((s.find i mo).bind fun os => s.heap[os]?).map HeapObject.contents

/-- One call. It answers the object state it built or wrote to, or the new address space;
it has no result where an assertion fails or there is no such address space. -/
def step [Inhabited K] (s : AddressSpaces K α) : SpaceCall K α → Option (Option ℕ × AddressSpaces K α)
  | .newObject contents readOnly =>
      some (some s.heap.length, { s with heap := s.heap ++ [⟨0, readOnly, contents⟩] })
  | .bindObject i mo os => do
      let space ← s.space i
      let (space, heap) ← space.bindObject s.heap mo os
      some (none, ⟨heap, s.spaces.set i (some space)⟩)
  | .unbindObject i mo => do
      let space ← s.space i
      some (none, { s with spaces := s.spaces.set i (some (space.unbindObject mo)) })
  | .write i mo f => do
      let space ← s.space i
      let os ← space.findObject mo
      let (wos, space, heap) ← space.getWriteable s.heap mo os
      let object ← heap[wos]?
      some (some wos, ⟨heap.set wos { object with contents := f object.contents },
        s.spaces.set i (some space)⟩)
  | .copy i => do
      let space ← s.space i
      let (space, copy) := space.copy
      some (some s.spaces.length, { s with spaces := s.spaces.set i (some space) ++ [some copy] })
  | .destroy i => do
      let _ ← s.space i
      some (none, { s with spaces := s.spaces.set i none })

/-! ## What the calls do -/

section Calls

variable [Inhabited K]

variable {s s' : AddressSpaces K α} {i : ℕ} {mo : K} {a : Option ℕ}

theorem bindObject_cases {os : ℕ} (h : step s (.bindObject i mo os) = some (a, s')) :
    ∃ space object, s.space i = some space ∧ s.heap[os]? = some object
      ∧ object.copyOnWriteOwner = 0
      ∧ s' = ⟨s.heap.set os { object with copyOnWriteOwner := space.cowKey },
          s.spaces.set i (some { space with objects := space.objects.replace (mo, os) })⟩ := by
  simp only [step, Option.bind_eq_bind, Option.bind_eq_some_iff] at h
  obtain ⟨space, hspace, ⟨space', heap'⟩, hbind, heq⟩ := h
  rw [AddressSpace.bindObject] at hbind
  cases hobject : s.heap[os]? with
  | none => rw [hobject] at hbind; exact absurd hbind (by simp)
  | some object =>
    rw [hobject] at hbind
    obtain ⟨howner, hsome⟩ := (Option.ite_none_right_eq_some).mp hbind
    obtain ⟨rfl, rfl⟩ := Prod.mk.inj (Option.some.inj hsome)
    obtain ⟨-, rfl⟩ := Prod.mk.inj (Option.some.inj heq)
    exact ⟨space, object, hspace, rfl, howner, rfl⟩

theorem unbindObject_cases (h : step s (.unbindObject i mo) = some (a, s')) :
    ∃ space, s.space i = some space
      ∧ s' = { s with spaces := s.spaces.set i (some (space.unbindObject mo)) } := by
  simp only [step, Option.bind_eq_bind, Option.bind_eq_some_iff] at h
  obtain ⟨space, hspace, heq⟩ := h
  exact ⟨space, hspace, (Prod.mk.inj (Option.some.inj heq)).2.symm⟩

theorem copy_cases (h : step s (.copy i) = some (a, s')) :
    ∃ space, s.space i = some space
      ∧ s' = { s with spaces := s.spaces.set i (some space.copy.1) ++ [some space.copy.2] } := by
  simp only [step, Option.bind_eq_bind, Option.bind_eq_some_iff] at h
  obtain ⟨space, hspace, heq⟩ := h
  exact ⟨space, hspace, (Prod.mk.inj (Option.some.inj heq)).2.symm⟩

theorem destroy_cases (h : step s (.destroy i) = some (a, s')) :
    ∃ space, s.space i = some space ∧ s' = { s with spaces := s.spaces.set i none } := by
  simp only [step, Option.bind_eq_bind, Option.bind_eq_some_iff] at h
  obtain ⟨space, hspace, heq⟩ := h
  exact ⟨space, hspace, (Prod.mk.inj (Option.some.inj heq)).2.symm⟩

/-- A write is in place when the address space owns the object state, and otherwise goes
to a copy that takes its place. -/
theorem write_cases {f : α → α} (h : step s (.write i mo f) = some (a, s')) :
    ∃ space os object, s.space i = some space ∧ space.findObject mo = some os
      ∧ s.heap[os]? = some object
      ∧ (space.cowKey = object.copyOnWriteOwner ∧ a = some os
          ∧ s' = ⟨s.heap.set os { object with contents := f object.contents },
              s.spaces.set i (some space)⟩
        ∨ space.cowKey ≠ object.copyOnWriteOwner ∧ a = some s.heap.length
          ∧ s' = ⟨s.heap ++ [⟨space.cowKey, false, f object.contents⟩],
              s.spaces.set i
                (some { space with objects := space.objects.replace (mo, s.heap.length) })⟩) := by
  simp only [step, Option.bind_eq_bind, Option.bind_eq_some_iff] at h
  obtain ⟨space, hspace, os, hfind, ⟨wos, space', heap'⟩, hget, written, hwritten, heq⟩ := h
  rw [AddressSpace.getWriteable] at hget
  cases hobject : s.heap[os]? with
  | none => rw [hobject] at hget; exact absurd hget (by simp)
  | some object =>
    rw [hobject] at hget
    obtain ⟨-, hget⟩ := (Option.ite_none_left_eq_some).mp hget
    refine ⟨space, os, object, hspace, hfind, hobject, ?_⟩
    obtain ⟨rfl, rfl⟩ := Prod.mk.inj (Option.some.inj heq)
    by_cases howner : space.cowKey = object.copyOnWriteOwner
    · rw [if_pos howner, Option.some.injEq, Prod.mk.injEq, Prod.mk.injEq] at hget
      obtain ⟨rfl, rfl, rfl⟩ := hget
      obtain rfl : object = written := Option.some.inj (hobject.symm.trans hwritten)
      exact .inl ⟨howner, rfl, rfl⟩
    · rw [if_neg howner, Option.some.injEq, Prod.mk.injEq, Prod.mk.injEq] at hget
      obtain ⟨rfl, rfl, rfl⟩ := hget
      rw [List.getElem?_concat_length, Option.some.injEq] at hwritten
      subst hwritten
      refine .inr ⟨howner, rfl, ?_⟩
      rw [List.set_append_right _ _ le_rfl, Nat.sub_self]
      rfl

end Calls

/-! ## The invariant -/

/-- The epochs tell who may write in place: an object state that is bound in an address
space has an owner up to its key, and one that another address space can reach as well
has an owner below the key. An object state is bound to one memory object only. -/
structure Isolated (s : AddressSpaces K α) : Prop where
  key : ∀ i space, s.space i = some space → 0 < space.cowKey.toNat
  owner : ∀ i space mo os, s.space i = some space → space.findObject mo = some os →
    ∃ object, s.heap[os]? = some object ∧ 0 < object.copyOnWriteOwner.toNat
      ∧ object.copyOnWriteOwner.toNat ≤ space.cowKey.toNat
  shared : ∀ i j space mo mo' os object, i ≠ j → s.space i = some space →
    space.findObject mo = some os → s.find j mo' = some os → s.heap[os]? = some object →
    object.copyOnWriteOwner.toNat < space.cowKey.toNat
  single : ∀ i j mo mo' os, s.find i mo = some os → s.find j mo' = some os → mo = mo'

variable {s s' : AddressSpaces K α} {i os : ℕ} {mo : K} {space : AddressSpace K} {a : Option ℕ}
  {f : α → α}

theorem find_eq_some :
    s.find i mo = some os ↔ ∃ space, s.space i = some space ∧ space.findObject mo = some os :=
  Option.bind_eq_some_iff

/-- The address spaces after one of them is replaced. -/
theorem space_set {old : AddressSpace K} (hold : s.space i = some old) (heap : List (HeapObject α))
    (new : Option (AddressSpace K)) :
    (⟨heap, s.spaces.set i new⟩ : AddressSpaces K α).space = Function.update s.space i new := by
  have hlt : i < s.spaces.length := by
    by_contra hge
    rw [space, List.getElem?_eq_none (not_lt.mp hge)] at hold
    exact absurd hold (by simp)
  funext j
  rw [space, List.getElem?_set]
  by_cases hij : i = j
  · subst hij
    rw [if_pos rfl, if_pos hlt, Function.update_self]
    rfl
  · rw [if_neg hij, Function.update_of_ne (Ne.symm hij)]
    rfl

/-- What a call other than a copy does: keys stay, at most one binding is new, its object
state was not reachable before and has the owner that the address space gives. -/
structure Rebinds (s s' : AddressSpaces K α) (bound : Option (ℕ × K × ℕ)) : Prop where
  key : ∀ i space', s'.space i = some space' →
    ∃ space, s.space i = some space ∧ space'.cowKey = space.cowKey
  find : ∀ i mo os, s'.find i mo = some os → s.find i mo = some os ∨ bound = some (i, mo, os)
  fresh : ∀ i mo os, bound = some (i, mo, os) →
    (∀ j mo', s.find j mo' ≠ some os) ∧ ∃ space object, s'.space i = some space
      ∧ s'.heap[os]? = some object ∧ object.copyOnWriteOwner = space.cowKey
  heap : ∀ i mo os object, s.find i mo = some os → s.heap[os]? = some object →
    ∃ object', s'.heap[os]? = some object'
      ∧ object'.copyOnWriteOwner = object.copyOnWriteOwner

/-- Rebinding keeps the epochs in order. -/
theorem Rebinds.isolated {bound : Option (ℕ × K × ℕ)} (h : Rebinds s s' bound) (hs : s.Isolated) :
    s'.Isolated := by
  have hkey : ∀ i space, s'.space i = some space → 0 < space.cowKey.toNat := by
    intro i space hspace
    obtain ⟨old, hold, heq⟩ := h.key i space hspace
    exact heq ▸ hs.key i old hold
  refine ⟨hkey, ?_, ?_, ?_⟩
  · intro i space mo os hspace hfind
    rcases h.find i mo os (find_eq_some.mpr ⟨space, hspace, hfind⟩) with hold | hbound
    · obtain ⟨old, hold', hfind'⟩ := find_eq_some.mp hold
      obtain ⟨object, hobject, hpos, hle⟩ := hs.owner i old mo os hold' hfind'
      obtain ⟨object', hobject', heq⟩ := h.heap i mo os object hold hobject
      obtain ⟨old₂, hold₂, hkeys⟩ := h.key i space hspace
      obtain rfl : old₂ = old := Option.some.inj (hold₂.symm.trans hold')
      exact ⟨object', hobject', heq ▸ hpos, heq ▸ hkeys ▸ hle⟩
    · obtain ⟨-, space', object, hspace', hobject, howner⟩ := h.fresh i mo os hbound
      obtain rfl : space' = space := Option.some.inj (hspace'.symm.trans hspace)
      exact ⟨object, hobject, howner ▸ hkey i _ hspace, howner ▸ le_rfl⟩
  · intro i j space mo mo' os object hij hspace hfind hfind' hobject
    have hfindi : s'.find i mo = some os := find_eq_some.mpr ⟨space, hspace, hfind⟩
    rcases h.find i mo os hfindi with hold | hbound
    · rcases h.find j mo' os hfind' with hold' | hbound'
      · obtain ⟨old, hspaceOld, hfindOld⟩ := find_eq_some.mp hold
        obtain ⟨objectOld, hobjectOld, -, -⟩ := hs.owner i old mo os hspaceOld hfindOld
        obtain ⟨object', hobject', heq⟩ := h.heap i mo os objectOld hold hobjectOld
        obtain rfl : object' = object := Option.some.inj (hobject'.symm.trans hobject)
        obtain ⟨old₂, hold₂, hkeys⟩ := h.key i space hspace
        obtain rfl : old₂ = old := Option.some.inj (hold₂.symm.trans hspaceOld)
        rw [heq, hkeys]
        exact hs.shared i j _ mo mo' os objectOld hij hspaceOld hfindOld hold' hobjectOld
      · exact absurd hold ((h.fresh j mo' os hbound').1 i mo)
    · rcases h.find j mo' os hfind' with hold' | hbound'
      · exact absurd hold' ((h.fresh i mo os hbound).1 j mo')
      · rw [hbound, Option.some.injEq, Prod.mk.injEq] at hbound'
        exact absurd hbound'.1 hij
  · intro i j mo mo' os hfind hfind'
    rcases h.find i mo os hfind with hold | hbound
    · rcases h.find j mo' os hfind' with hold' | hbound'
      · exact hs.single i j mo mo' os hold hold'
      · exact absurd hold ((h.fresh j mo' os hbound').1 i mo)
    · rcases h.find j mo' os hfind' with hold' | hbound'
      · exact absurd hold' ((h.fresh i mo os hbound).1 j mo')
      · rw [hbound, Option.some.injEq, Prod.mk.injEq, Prod.mk.injEq] at hbound'
        exact hbound'.2.1

/-! ## Every call keeps the invariant -/

/-- The call does not take a key past its largest value. -/
def KeyLasts (s : AddressSpaces K α) : SpaceCall K α → Prop
  | .copy i => ∀ space, s.space i = some space → space.cowKey.toNat + 1 < 2 ^ 32
  | _ => True

/-- An object state without an owner is bound nowhere. -/
theorem Isolated.not_find (h : s.Isolated) {object : HeapObject α}
    (hobject : s.heap[os]? = some object) (howner : object.copyOnWriteOwner = 0) (j : ℕ) (mo : K) :
    s.find j mo ≠ some os := by
  intro hfind
  obtain ⟨space, hspace, hfind⟩ := find_eq_some.mp hfind
  obtain ⟨object', hobject', hpos, -⟩ := h.owner j space mo os hspace hfind
  obtain rfl : object = object' := Option.some.inj (hobject.symm.trans hobject')
  rw [howner] at hpos
  exact absurd hpos (by decide)

/-- What is bound is in the heap. -/
theorem Isolated.find_lt (h : s.Isolated) (hfind : s.find i mo = some os) : os < s.heap.length := by
  obtain ⟨space, hspace, hfind⟩ := find_eq_some.mp hfind
  obtain ⟨object, hobject, -, -⟩ := h.owner i space mo os hspace hfind
  exact (List.getElem?_eq_some_iff.mp hobject).1

/-- Putting one address space in the place of another with the same key, with one binding
changed. -/
theorem find_set (hspace : s.space i = some space) (heap : List (HeapObject α))
    (space' : AddressSpace K) {bound : Option ℕ}
    (hfind : space'.findObject = Function.update space.findObject mo bound) (j : ℕ) (mo' : K) :
    (⟨heap, s.spaces.set i (some space')⟩ : AddressSpaces K α).find j mo'
      = if j = i ∧ mo' = mo then bound else s.find j mo' := by
  rw [find, space_set hspace, find]
  by_cases hj : j = i
  · subst hj
    rw [Function.update_self, hspace, Option.bind_some, Option.bind_some, hfind]
    by_cases hmo : mo' = mo
    · rw [if_pos ⟨rfl, hmo⟩, hmo, Function.update_self]
    · rw [if_neg (fun h => hmo h.2), Function.update_of_ne hmo]
  · rw [Function.update_of_ne hj, if_neg (fun h => hj h.1)]

theorem key_set {space' : AddressSpace K} (hspace : s.space i = some space)
    (heap : List (HeapObject α)) (hkey : space'.cowKey = space.cowKey) (j : ℕ)
    (new : AddressSpace K)
    (hnew : (⟨heap, s.spaces.set i (some space')⟩ : AddressSpaces K α).space j = some new) :
    ∃ old, s.space j = some old ∧ new.cowKey = old.cowKey := by
  rw [space_set hspace] at hnew
  by_cases hj : j = i
  · subst hj
    rw [Function.update_self, Option.some.injEq] at hnew
    exact ⟨space, hspace, hnew ▸ hkey⟩
  · rw [Function.update_of_ne hj] at hnew
    exact ⟨new, hnew, rfl⟩

variable [Inhabited K]

theorem rebinds_bindObject (hs : s.Isolated) (h : step s (.bindObject i mo os) = some (a, s')) :
    Rebinds s s' (some (i, mo, os)) := by
  obtain ⟨space, object, hspace, hobject, howner, rfl⟩ := bindObject_cases h
  have hlt : os < s.heap.length := (List.getElem?_eq_some_iff.mp hobject).1
  have hfind := find_set hspace (s.heap.set os { object with copyOnWriteOwner := space.cowKey })
    { space with objects := space.objects.replace (mo, os) }
    (ImmutableMap.lookup_replace space.objects mo os)
  refine ⟨key_set hspace _ rfl, ?_, ?_, ?_⟩
  · intro j mo' os' h'
    rw [hfind] at h'
    split at h'
    next heq =>
      obtain ⟨rfl, rfl⟩ := heq
      exact .inr (Option.some.inj h' ▸ rfl)
    next => exact .inl h'
  · intro j mo' os' heq
    obtain ⟨rfl, rfl, rfl⟩ : i = j ∧ mo = mo' ∧ os = os' := by simpa using heq
    refine ⟨hs.not_find hobject howner, { space with objects := space.objects.replace (mo, os) },
      { object with copyOnWriteOwner := space.cowKey }, ?_, ?_, rfl⟩
    · rw [space_set hspace, Function.update_self]
    · exact List.getElem?_set_self hlt
  · intro j mo' os' object' hfind' hobject'
    have hne : os ≠ os' := fun heq => hs.not_find hobject howner j mo' (heq ▸ hfind')
    exact ⟨object', by rw [List.getElem?_set_ne hne, hobject'], rfl⟩

theorem rebinds_write (hs : s.Isolated) (h : step s (.write i mo f) = some (a, s')) :
    ∃ bound, Rebinds s s' bound := by
  obtain ⟨space, os, object, hspace, hos, hobject, ⟨howner, -, rfl⟩ | ⟨howner, -, rfl⟩⟩ :=
    write_cases h
  · -- In place: only the contents change.
    refine ⟨none, key_set hspace _ rfl, ?_, by simp, ?_⟩
    · intro j mo' os' h'
      rw [find, space_set hspace, ← hspace, Function.update_eq_self] at h'
      exact .inl h'
    · intro j mo' os' object' hfind' hobject'
      by_cases heq : os = os'
      · subst heq
        obtain rfl : object = object' := Option.some.inj (hobject.symm.trans hobject')
        exact ⟨_, List.getElem?_set_self (List.getElem?_eq_some_iff.mp hobject).1, rfl⟩
      · exact ⟨object', by rw [List.getElem?_set_ne heq, hobject'], rfl⟩
  · -- A copy with the key of the address space.
    have hfind := find_set hspace (s.heap ++ [⟨space.cowKey, false, f object.contents⟩])
      { space with objects := space.objects.replace (mo, s.heap.length) }
      (ImmutableMap.lookup_replace space.objects mo s.heap.length)
    refine ⟨some (i, mo, s.heap.length), key_set hspace _ rfl, ?_, ?_, ?_⟩
    · intro j mo' os' h'
      rw [hfind] at h'
      split at h'
      next heq =>
        obtain ⟨rfl, rfl⟩ := heq
        exact .inr (Option.some.inj h' ▸ rfl)
      next => exact .inl h'
    · intro j mo' os' heq
      obtain ⟨rfl, rfl, rfl⟩ : i = j ∧ mo = mo' ∧ s.heap.length = os' := by simpa using heq
      refine ⟨fun j' mo'' h' => absurd (hs.find_lt h') (lt_irrefl _),
        { space with objects := space.objects.replace (mo, s.heap.length) },
        ⟨space.cowKey, false, f object.contents⟩, ?_, List.getElem?_concat_length, rfl⟩
      rw [space_set hspace, Function.update_self]
    · intro j mo' os' object' hfind' hobject'
      exact ⟨object', by rw [List.getElem?_append_left (hs.find_lt hfind'), hobject'], rfl⟩

theorem rebinds_newObject {contents : α} {readOnly : Bool}
    (h : step s (.newObject contents readOnly) = some (a, s')) :
    Rebinds s s' none := by
  obtain ⟨-, rfl⟩ := Prod.mk.inj (Option.some.inj h)
  refine ⟨fun j space hspace => ⟨space, hspace, rfl⟩, fun j mo os h' => .inl h', by simp, ?_⟩
  intro j mo os object hfind hobject
  exact ⟨object, List.getElem?_append_left (List.getElem?_eq_some_iff.mp hobject).1 ▸ hobject, rfl⟩

theorem rebinds_unbindObject (h : step s (.unbindObject i mo) = some (a, s')) :
    Rebinds s s' none := by
  obtain ⟨space, hspace, rfl⟩ := unbindObject_cases h
  have hfind := find_set hspace s.heap (space.unbindObject mo)
    (ImmutableMap.lookup_remove space.objects mo)
  refine ⟨key_set hspace _ rfl, ?_, by simp, fun j mo os object _ hobject => ⟨object, hobject, rfl⟩⟩
  intro j mo' os h'
  rw [hfind] at h'
  split at h'
  next => exact absurd h' (by simp)
  next => exact .inl h'

theorem rebinds_destroy (h : step s (.destroy i) = some (a, s')) : Rebinds s s' none := by
  obtain ⟨space, hspace, rfl⟩ := destroy_cases h
  refine ⟨?_, ?_, by simp, fun j mo os object _ hobject => ⟨object, hobject, rfl⟩⟩
  · intro j new hnew
    rw [space_set hspace] at hnew
    by_cases hj : j = i
    · rw [hj, Function.update_self] at hnew
      exact absurd hnew (by simp)
    · rw [Function.update_of_ne hj] at hnew
      exact ⟨new, hnew, rfl⟩
  · intro j mo os h'
    rw [find, space_set hspace] at h'
    by_cases hj : j = i
    · rw [hj, Function.update_self] at h'
      exact absurd h' (by simp)
    · rw [Function.update_of_ne hj] at h'
      exact .inl h'

omit [Inhabited K] in
/-- Each address space after a copy of `i` is one from before, except that `i` and its copy
have the next key. -/
theorem space_copy (hspace : s.space i = some space) {j : ℕ} {new : AddressSpace K}
    (hnew : ({ s with spaces := s.spaces.set i (some space.copy.1) ++ [some space.copy.2] } :
      AddressSpaces K α).space j = some new) :
    (j ≠ i ∧ s.space j = some new)
      ∨ (j = i ∨ j = s.spaces.length) ∧ new = ⟨space.cowKey + 1, space.objects⟩ := by
  have hset : ({ s with spaces := s.spaces.set i (some space.copy.1) } : AddressSpaces K α).space
      = Function.update s.space i (some space.copy.1) := space_set hspace s.heap _
  have hlen : (s.spaces.set i (some space.copy.1)).length = s.spaces.length := List.length_set
  rw [AddressSpaces.space, List.getElem?_append] at hnew
  split at hnew
  next hlt =>
    change ({ s with spaces := s.spaces.set i (some space.copy.1) } : AddressSpaces K α).space j
      = some new at hnew
    rw [hset] at hnew
    by_cases hj : j = i
    · rw [hj, Function.update_self] at hnew
      exact .inr ⟨.inl hj, (Option.some.inj hnew).symm⟩
    · rw [Function.update_of_ne hj] at hnew
      exact .inl ⟨hj, hnew⟩
  next hge =>
    have hj : j - (s.spaces.set i (some space.copy.1)).length = 0 := by
      by_contra hne
      rw [List.getElem?_eq_none (by rw [List.length_singleton]; omega)] at hnew
      exact absurd hnew (by simp)
    rw [hj] at hnew
    refine .inr ⟨.inr (by omega), ?_⟩
    exact (Option.some.inj (show some space.copy.2 = some new from hnew)).symm

theorem isolated_copy (hs : s.Isolated) (hkey : KeyLasts s (.copy i))
    (h : step s (.copy i) = some (a, s')) : s'.Isolated := by
  obtain ⟨space, hspace, rfl⟩ := copy_cases h
  have hsucc : (space.cowKey + 1).toNat = space.cowKey.toNat + 1 := by
    rw [BitVec.toNat_add]
    exact Nat.mod_eq_of_lt (hkey space hspace)
  -- Where an address space comes from, and that its key is no smaller.
  have hfrom : ∀ j new, ({ s with spaces := s.spaces.set i (some space.copy.1)
      ++ [some space.copy.2] } : AddressSpaces K α).space j = some new →
      ∃ k old, s.space k = some old ∧ new.objects = old.objects
        ∧ (k = j ∧ j ≠ i ∧ new.cowKey.toNat = old.cowKey.toNat
          ∨ k = i ∧ new.cowKey.toNat = old.cowKey.toNat + 1) := by
    intro j new hnew
    rcases space_copy hspace hnew with ⟨hj, hold⟩ | ⟨-, rfl⟩
    · exact ⟨j, new, hold, rfl, .inl ⟨rfl, hj, rfl⟩⟩
    · exact ⟨i, space, hspace, rfl, .inr ⟨rfl, hsucc⟩⟩
  refine ⟨?_, ?_, ?_, ?_⟩
  · intro j new hnew
    obtain ⟨k, old, hold, -, hkeys⟩ := hfrom j new hnew
    have hpos := hs.key k old hold
    omega
  · intro j new mo os hnew hfind
    obtain ⟨k, old, hold, hobjects, hkeys⟩ := hfrom j new hnew
    rw [AddressSpace.findObject, hobjects] at hfind
    obtain ⟨object, hobject, hpos, hle⟩ := hs.owner k old mo os hold hfind
    exact ⟨object, hobject, hpos, by omega⟩
  · intro j j' new mo mo' os object hjj hnew hfind hfind' hobject
    obtain ⟨new', hnew', hfind'⟩ := find_eq_some.mp hfind'
    obtain ⟨k, old, hold, hobjects, hkeys⟩ := hfrom j new hnew
    obtain ⟨k', old', hold', hobjects', hkeys'⟩ := hfrom j' new' hnew'
    rw [AddressSpace.findObject, hobjects] at hfind
    rw [AddressSpace.findObject, hobjects'] at hfind'
    by_cases hk : k = k'
    · -- Both are the copied one, whose old key bounds the owner.
      obtain ⟨object', hobject', -, hle⟩ := hs.owner k old mo os hold hfind
      obtain rfl : object = object' := Option.some.inj (hobject.symm.trans hobject')
      omega
    · have hlt := hs.shared k k' old mo mo' os object hk hold hfind
        (find_eq_some.mpr ⟨old', hold', hfind'⟩) hobject
      omega
  · intro j j' mo mo' os hfind hfind'
    obtain ⟨new, hnew, hfind⟩ := find_eq_some.mp hfind
    obtain ⟨new', hnew', hfind'⟩ := find_eq_some.mp hfind'
    obtain ⟨k, old, hold, hobjects, -⟩ := hfrom j new hnew
    obtain ⟨k', old', hold', hobjects', -⟩ := hfrom j' new' hnew'
    rw [AddressSpace.findObject, hobjects] at hfind
    rw [AddressSpace.findObject, hobjects'] at hfind'
    exact hs.single k k' mo mo' os (find_eq_some.mpr ⟨old, hold, hfind⟩)
      (find_eq_some.mpr ⟨old', hold', hfind'⟩)

/-- Every call keeps the invariant. -/
theorem isolated_step (s : AddressSpaces K α) (c : SpaceCall K α) (a : Option ℕ)
    (s' : AddressSpaces K α) (hs : s.Isolated) (hkey : KeyLasts s c)
    (h : step s c = some (a, s')) : s'.Isolated := by
  cases c with
  | newObject contents readOnly => exact (rebinds_newObject h).isolated hs
  | bindObject i mo os => exact (rebinds_bindObject hs h).isolated hs
  | unbindObject i mo => exact (rebinds_unbindObject h).isolated hs
  | write i mo f =>
    obtain ⟨bound, hbound⟩ := rebinds_write hs h
    exact hbound.isolated hs
  | copy i => exact isolated_copy hs hkey h
  | destroy i => exact (rebinds_destroy h).isolated hs

omit [Inhabited K] in
theorem isolated_init : (init : AddressSpaces K α).Isolated := by
  have hspace : ∀ i space, (init : AddressSpaces K α).space i = some space →
      i = 0 ∧ space = .new := by
    intro i space h
    cases i with
    | zero => exact ⟨rfl, (Option.some.inj h).symm⟩
    | succ i => exact absurd h (by simp [AddressSpaces.space, init])
  have hnone : ∀ i mo os, (init : AddressSpaces K α).find i mo ≠ some os := by
    intro i mo os h
    obtain ⟨space, hsp, hfind⟩ := find_eq_some.mp h
    obtain ⟨-, rfl⟩ := hspace i space hsp
    exact absurd hfind (by simp [AddressSpace.findObject, AddressSpace.new, ImmutableMap.lookup_empty])
  refine ⟨?_, ?_, ?_, ?_⟩
  · intro i space h
    obtain ⟨-, rfl⟩ := hspace i space h
    exact (by decide : 0 < (1 : BitVec 32).toNat)
  · exact fun i space mo os h hfind => absurd (find_eq_some.mpr ⟨space, h, hfind⟩) (hnone i mo os)
  · exact fun i j space mo mo' os object _ h hfind =>
      absurd (find_eq_some.mpr ⟨space, h, hfind⟩) (hnone i mo os)
  · exact fun i j mo mo' os h => absurd h (hnone i mo os)

/-! ## Writes -/

/-- A write to `mo` in address space `i` that writes to the object state `a`: what is
observed elsewhere stays, and what was in the heap before is written to only if nothing
else reaches it. -/
structure WriteIsolated (s s' : AddressSpaces K α) (i : ℕ) (mo : K) (f : α → α)
    (a : Option ℕ) : Prop where
  written : s'.observe i mo = (s.observe i mo).map f
  others : ∀ j mo', (j, mo') ≠ (i, mo) → s'.observe j mo' = s.observe j mo'
  inPlace : ∀ os, a = some os → os < s.heap.length →
    s.find i mo = some os ∧ ∀ j mo', s.find j mo' = some os → j = i ∧ mo' = mo

theorem writeIsolated_of_isolated (hs : s.Isolated) (h : step s (.write i mo f) = some (a, s')) :
    WriteIsolated s s' i mo f a := by
  obtain ⟨space, os, object, hspace, hos, hobject, ⟨howner, rfl, rfl⟩ | ⟨howner, rfl, rfl⟩⟩ :=
    write_cases h
  · have hfind : s.find i mo = some os := find_eq_some.mpr ⟨space, hspace, hos⟩
    have hsame : ∀ j mo', (⟨s.heap.set os { object with contents := f object.contents },
        s.spaces.set i (some space)⟩ : AddressSpaces K α).find j mo' = s.find j mo' := by
      intro j mo'
      rw [find, space_set hspace, ← hspace, Function.update_eq_self, find]
    have honly : ∀ j mo', s.find j mo' = some os → j = i ∧ mo' = mo := by
      intro j mo' hj
      refine ⟨?_, hs.single j i mo' mo os hj hfind⟩
      by_contra hne
      have hlt := hs.shared i j space mo mo' os object (Ne.symm hne) hspace hos hj hobject
      rw [howner] at hlt
      exact lt_irrefl _ hlt
    refine ⟨?_, ?_, ?_⟩
    · rw [observe, hsame, hfind, Option.bind_some, observe, hfind, Option.bind_some, hobject,
        List.getElem?_set_self (List.getElem?_eq_some_iff.mp hobject).1]
      rfl
    · intro j mo' hne
      rw [observe, hsame, observe]
      cases hj : s.find j mo' with
      | none => rfl
      | some os' =>
        have hos' : os ≠ os' := by
          rintro rfl
          obtain ⟨rfl, rfl⟩ := honly j mo' hj
          exact hne rfl
        rw [Option.bind_some, Option.bind_some, List.getElem?_set_ne hos']
    · intro os' heq _
      obtain rfl := Option.some.inj heq
      exact ⟨hfind, honly⟩
  · have hfind : s.find i mo = some os := find_eq_some.mpr ⟨space, hspace, hos⟩
    have hnew := find_set hspace (s.heap ++ [⟨space.cowKey, false, f object.contents⟩])
      { space with objects := space.objects.replace (mo, s.heap.length) }
      (ImmutableMap.lookup_replace space.objects mo s.heap.length)
    refine ⟨?_, ?_, ?_⟩
    · rw [observe, hnew, if_pos ⟨rfl, rfl⟩, Option.bind_some, List.getElem?_concat_length, observe,
        hfind, Option.bind_some, hobject]
      rfl
    · intro j mo' hne
      rw [observe, hnew, if_neg (fun heq => hne (Prod.ext heq.1 heq.2)), observe]
      cases hj : s.find j mo' with
      | none => rfl
      | some os' =>
        rw [Option.bind_some, Option.bind_some, List.getElem?_append_left (hs.find_lt hj)]
    · intro os' heq hlt
      obtain rfl := Option.some.inj heq
      exact absurd hlt (lt_irrefl _)

/-- In every system that is reached while no key wraps around, the epochs are in order and
writes are isolated. -/
theorem copyOnWrite_isolates {s : AddressSpaces K α} (h : Reaches step KeyLasts init s) :
    s.Isolated ∧ ∀ i mo f a s', step s (.write i mo f) = some (a, s') →
      WriteIsolated s s' i mo f a := by
  have hs : s.Isolated := h.invariant isolated_init isolated_step
  exact ⟨hs, fun i mo f a s' hstep => writeIsolated_of_isolated hs hstep⟩

/-! ## Keys that wrap around -/

/-- One object, bound in the first address space. -/
def boundOnce : AddressSpaces ℕ ℕ :=
  ⟨[⟨1, false, 5⟩], [some ⟨1, ImmutableMap.empty.replace (0, 0)⟩]⟩

theorem reaches_boundOnce (Ok : AddressSpaces ℕ ℕ → SpaceCall ℕ ℕ → Prop)
    (hnew : Ok init (.newObject 5 false))
    (hbind : Ok ⟨[⟨0, false, 5⟩], [some .new]⟩ (.bindObject 0 0 0)) :
    Reaches step Ok init boundOnce :=
  .step (.step .init hnew rfl) hbind rfl

/-- A write by the copy leaves the first address space alone. -/
theorem copyOnWrite_isolates_copy :
    ∃ s : AddressSpaces ℕ ℕ, Reaches step KeyLasts init s ∧ s.Isolated
      ∧ ∃ s', step s (.write 1 0 (· + 1)) = some (some 1, s')
        ∧ WriteIsolated s s' 1 0 (· + 1) (some 1) := by
  have hreach : Reaches step KeyLasts init
      (⟨[⟨1, false, 5⟩], [some ⟨2, ImmutableMap.empty.replace (0, 0)⟩,
        some ⟨2, ImmutableMap.empty.replace (0, 0)⟩]⟩ : AddressSpaces ℕ ℕ) := by
    refine .step (c := .copy 0) (reaches_boundOnce KeyLasts trivial trivial) ?_ rfl
    intro space hspace
    obtain rfl := Option.some.inj hspace
    decide
  obtain ⟨hisolated, hwrite⟩ := copyOnWrite_isolates hreach
  exact ⟨_, hreach, hisolated, _, rfl, hwrite 1 0 (· + 1) _ _ rfl⟩

/-- The first address space after `n` copies of it: its key has grown by `n`, and the
first copy still has the object. -/
theorem reaches_copies (n : ℕ) :
    ∃ s : AddressSpaces ℕ ℕ, Reaches step (fun _ _ => True) init s
      ∧ s.heap = boundOnce.heap ∧ s.spaces.length = n + 1
      ∧ s.space 0 = some ⟨1 + BitVec.ofNat 32 n, ImmutableMap.empty.replace (0, 0)⟩
      ∧ (n ≠ 0 → ∃ key, s.space 1 = some ⟨key, ImmutableMap.empty.replace (0, 0)⟩) := by
  induction n with
  | zero =>
    exact ⟨boundOnce, reaches_boundOnce _ trivial trivial, rfl, rfl, rfl, fun h => absurd rfl h⟩
  | succ n ih =>
    obtain ⟨s, hreach, hheap, hlen, hspace, hother⟩ := ih
    have hstep : step s (.copy 0) = some (some s.spaces.length, { s with
        spaces := s.spaces.set 0 (some ⟨1 + BitVec.ofNat 32 n + 1, ImmutableMap.empty.replace (0, 0)⟩)
          ++ [some ⟨1 + BitVec.ofNat 32 n + 1, ImmutableMap.empty.replace (0, 0)⟩] }) := by
      rw [step, hspace]
      rfl
    have hkey : 1 + BitVec.ofNat 32 n + 1 = 1 + BitVec.ofNat 32 (n + 1) := by
      rw [BitVec.ofNat_add, BitVec.add_assoc]
      rfl
    refine ⟨_, .step hreach trivial hstep, hheap, ?_, ?_, fun _ => ?_⟩
    · rw [List.length_append, List.length_set, hlen]
      rfl
    · have hlt : 0 < s.spaces.length := hlen ▸ Nat.succ_pos n
      rw [space, List.getElem?_append_left (by rwa [List.length_set]), List.getElem?_set_self hlt,
        hkey]
      rfl
    · by_cases hn : n = 0
      · refine ⟨1 + BitVec.ofNat 32 n + 1, ?_⟩
        rw [space, List.getElem?_append_right (by rw [List.length_set]; omega), List.length_set, hlen,
          hn]
        rfl
      · obtain ⟨key, hone⟩ := hother hn
        refine ⟨key, ?_⟩
        rw [space, List.getElem?_append_left (by rw [List.length_set]; omega),
          List.getElem?_set_ne (by decide)]
        exact hone

/-- After `2 ^ 32` copies the key is the owner of the object again, and a write goes
through to the first copy. -/
theorem cowKey_wraps :
    ¬∀ s : AddressSpaces ℕ ℕ, Reaches step (fun _ _ => True) init s →
      ∀ i mo f a s', step s (.write i mo f) = some (a, s') → WriteIsolated s s' i mo f a := by
  intro hall
  obtain ⟨s, hreach, hheap, hlen, hspace, hother⟩ := reaches_copies (2 ^ 32)
  obtain ⟨key, hone⟩ := hother (by decide)
  have hkey : (1 : BitVec 32) + BitVec.ofNat 32 (2 ^ 32) = 1 := by decide
  rw [hkey] at hspace
  have hstep : step s (.write 0 0 fun _ => 7)
      = some (some 0, ⟨[⟨1, false, 7⟩], s.spaces.set 0 (some ⟨1, ImmutableMap.empty.replace (0, 0)⟩)⟩) := by
    rw [step, hspace, hheap]
    rfl
  have hothers := (hall s hreach 0 0 _ _ _ hstep).others 1 0 (by decide)
  rw [observe, observe, find, find, space_set hspace, Function.update_of_ne (by decide), hone, hheap]
    at hothers
  change some 7 = some 5 at hothers
  exact absurd hothers (by decide)

/-! ## Native memory -/

/-- Native memory: what is at the address of a memory object, and what `memcpy` to and
`memcmp` with a concrete store are. -/
structure NativeMemory (K α β : Type) where
  isUserSpecified : K → Bool
  address : K → β
  concreteStore : α → β
  memcpy : β → α → α

namespace NativeMemory

variable {β : Type} [DecidableEq β] (m : NativeMemory K α β)

/-- The loop of `copyInConcretes` in address space `i`, over the map that the iterator
walks. -/
def copyInLoop (i : ℕ) : List (K × ℕ) → AddressSpaces K α → Option (Bool × AddressSpaces K α)
  | [], s => some (true, s)
  | (mo, os) :: objects, s =>
      if m.isUserSpecified mo then copyInLoop i objects s
      else do
        let object ← s.heap[os]?
        if m.concreteStore object.contents = m.address mo then copyInLoop i objects s
        else if object.readOnly then some (false, s)
        else do
          -- `mo` is still bound to `os`.
          let (_, s) ← step s (.write i mo (m.memcpy (m.address mo)))
          copyInLoop i objects s

def copyInConcretes (s : AddressSpaces K α) (i : ℕ) : Option (Bool × AddressSpaces K α) :=
  (s.space i).bind fun space => m.copyInLoop i space.objects.elts.toList s

/-- What a memory object holds after native memory is copied in. -/
def copiedIn (mo : K) (contents : α) : α :=
  if m.isUserSpecified mo ∨ m.concreteStore contents = m.address mo then contents
  else m.memcpy (m.address mo) contents

/-- Copying in fails at this object. -/
def Refuses (mo : K) (object : HeapObject α) : Prop :=
  m.isUserSpecified mo = false ∧ m.concreteStore object.contents ≠ m.address mo
    ∧ object.readOnly = true

/-- A bound object state that is not read-only can be written to, and what is bound to the
other memory objects stays. -/
theorem step_write_frame (hs : s.Isolated) (hfind : s.find i mo = some os) {object : HeapObject α}
    (hobject : s.heap[os]? = some object) (hwriteable : object.readOnly = false) :
    ∃ a s', step s (.write i mo f) = some (a, s')
      ∧ ∀ mo' ≠ mo, ∀ os', s.find i mo' = some os' →
        s'.find i mo' = some os' ∧ s'.heap[os']? = s.heap[os']? := by
  obtain ⟨space, hspace, hos⟩ := find_eq_some.mp hfind
  have hstep : (step s (.write i mo f)).isSome := by
    simp only [step, hspace, hos, AddressSpace.getWriteable, hobject, hwriteable,
      Option.bind_eq_bind, Option.bind_some, Bool.false_eq_true, if_false]
    split <;> simp [hobject]
  obtain ⟨⟨a, s'⟩, hstep⟩ := Option.isSome_iff_exists.mp hstep
  refine ⟨a, s', hstep, fun mo' hne os' hfind' => ?_⟩
  obtain ⟨space', os'', object', hspace', hos', hobject', ⟨-, -, rfl⟩ | ⟨-, -, rfl⟩⟩ :=
    write_cases hstep
  · have hother : os'' ≠ os' := by
      rintro rfl
      exact hne (hs.single i i mo' mo os'' hfind' (find_eq_some.mpr ⟨space', hspace', hos'⟩))
    refine ⟨?_, List.getElem?_set_ne hother⟩
    rwa [find, space_set hspace', ← hspace', Function.update_eq_self]
  · refine ⟨?_, List.getElem?_append_left (hs.find_lt hfind')⟩
    rwa [find_set hspace' _ { space' with objects := space'.objects.replace (mo, s.heap.length) }
      (ImmutableMap.lookup_replace space'.objects mo _), if_neg fun heq => hne heq.2]

variable {m}

/-- One round of the loop: it fails at the object, or the object is copied in and the
others stay. -/
theorem copyInLoop_cons (h : Reaches step KeyLasts init s) (hfind : s.find i mo = some os)
    {object : HeapObject α} (hobject : s.heap[os]? = some object) (objects : List (K × ℕ)) :
    m.Refuses mo object ∧ m.copyInLoop i ((mo, os) :: objects) s = some (false, s)
      ∨ ¬m.Refuses mo object ∧ ∃ s₁,
        m.copyInLoop i ((mo, os) :: objects) s = m.copyInLoop i objects s₁
        ∧ Reaches step KeyLasts init s₁
        ∧ s₁.observe i mo = (s.observe i mo).map (m.copiedIn mo)
        ∧ (∀ j mo', (j, mo') ≠ (i, mo) → s₁.observe j mo' = s.observe j mo')
        ∧ ∀ mo' ≠ mo, ∀ os', s.find i mo' = some os' →
          s₁.find i mo' = some os' ∧ s₁.heap[os']? = s.heap[os']? := by
  have hs := h.invariant isolated_init isolated_step
  have hobserve : s.observe i mo = some object.contents := by simp [observe, hfind, hobject]
  by_cases hskip : m.isUserSpecified mo = true ∨ m.concreteStore object.contents = m.address mo
  · refine .inr ⟨fun hr => hskip.elim (by simp [hr.1]) hr.2.1, s, ?_, h, ?_, fun _ _ _ => rfl,
      fun _ _ _ hold => ⟨hold, rfl⟩⟩
    · rcases hskip with hskip | hskip <;> simp [copyInLoop, hskip, hobject]
    · rw [hobserve, Option.map_some, copiedIn, if_pos hskip]
  · obtain ⟨huser, hdiff⟩ := not_or.mp hskip
    cases hro : object.readOnly with
    | true =>
      exact .inl ⟨⟨by simpa using huser, hdiff, hro⟩,
        by simp [copyInLoop, huser, hobject, hdiff, hro]⟩
    | false =>
      obtain ⟨a, s₁, hstep, hframe⟩ :=
        step_write_frame (f := m.memcpy (m.address mo)) hs hfind hobject hro
      have hwrite := writeIsolated_of_isolated hs hstep
      refine .inr ⟨fun hr => by simp [hr.2.2] at hro, s₁, ?_,
        h.step (c := .write i mo _) trivial hstep, ?_, hwrite.others, hframe⟩
      · simp [copyInLoop, huser, hobject, hdiff, hro, hstep]
      · rw [hwrite.written, hobserve, Option.map_some, Option.map_some, copiedIn, if_neg hskip]

/-- The loop, over bindings of different memory objects. -/
theorem copyInLoop_spec {objects : List (K × ℕ)} (hsorted : KeyedList.Sorted Prod.fst objects)
    (h : Reaches step KeyLasts init s) (hfind : ∀ b ∈ objects, s.find i b.1 = some b.2) :
    ∃ ok s', m.copyInLoop i objects s = some (ok, s')
      ∧ Reaches step KeyLasts init s'
      ∧ (∀ j mo, (j = i → ∀ os, (mo, os) ∉ objects) → s'.observe j mo = s.observe j mo)
      ∧ (ok = true ↔ ∀ b ∈ objects, ∀ object, s.heap[b.2]? = some object →
        ¬m.Refuses b.1 object)
      ∧ (ok = true → ∀ b ∈ objects, s'.observe i b.1 = (s.observe i b.1).map (m.copiedIn b.1)) := by
  induction objects generalizing s with
  | nil => exact ⟨true, s, rfl, h, fun _ _ _ => rfl, by simp, by simp⟩
  | cons b objects ih =>
    obtain ⟨mo, os⟩ := b
    obtain ⟨hlt, hsorted⟩ := List.pairwise_cons.mp hsorted
    have hmo : s.find i mo = some os := hfind (mo, os) List.mem_cons_self
    have hlen := (h.invariant isolated_init isolated_step).find_lt hmo
    obtain ⟨object, hobject⟩ : ∃ object, s.heap[os]? = some object :=
      ⟨_, List.getElem?_eq_getElem hlen⟩
    rcases copyInLoop_cons (m := m) h hmo hobject objects
      with ⟨hrefuses, hloop⟩ | ⟨hkeeps, s₁, hloop, h₁, hmap, hothers₁, hframe⟩
    · refine ⟨false, s, hloop, h, fun _ _ _ => rfl, ?_, by simp⟩
      simp only [Bool.false_eq_true, false_iff]
      exact fun hall => hall (mo, os) List.mem_cons_self object hobject hrefuses
    · have hframe' : ∀ b ∈ objects, s₁.find i b.1 = some b.2 ∧ s₁.heap[b.2]? = s.heap[b.2]? :=
        fun b hb => hframe b.1 (hlt b hb).ne' b.2 (hfind b (List.mem_cons_of_mem _ hb))
      obtain ⟨ok, s', hrun, h', hothers, hok, hcopied⟩ := ih hsorted h₁ fun b hb => (hframe' b hb).1
      refine ⟨ok, s', hloop.trans hrun, h', ?_, ?_, ?_⟩
      · intro j mo' hnot
        rw [hothers j mo' fun hj os' hb => hnot hj os' (List.mem_cons_of_mem _ hb), hothers₁]
        rintro ⟨⟩
        exact hnot rfl os List.mem_cons_self
      · have hheap : (∀ b ∈ objects, ∀ object, s₁.heap[b.2]? = some object → ¬m.Refuses b.1 object)
            ↔ ∀ b ∈ objects, ∀ object, s.heap[b.2]? = some object → ¬m.Refuses b.1 object :=
          forall₂_congr fun b hb => by rw [(hframe' b hb).2]
        rw [hok, hheap, List.forall_mem_cons, and_iff_right]
        exact fun object' hobject' => Option.some.inj (hobject.symm.trans hobject') ▸ hkeeps
      · intro htrue b hb
        rcases List.mem_cons.mp hb with rfl | hb
        · rw [hothers i mo fun _ os' hb => (hlt (mo, os') hb).ne rfl, hmap]
        · rw [hcopied htrue b hb, hothers₁ i b.1 fun heq => (hlt b hb).ne' (congrArg Prod.snd heq)]

/-- In every system that is reached while no key wraps around, copying native memory in fails no
assertion and no other address space sees it. It answers false exactly when a read-only object
was written to natively; otherwise every object is copied in that is not the user's. -/
theorem copyInConcretes_isolates (h : Reaches step KeyLasts init s)
    (hspace : s.space i = some space) :
    ∃ ok s', m.copyInConcretes s i = some (ok, s')
      ∧ Reaches step KeyLasts init s'
      ∧ (∀ j ≠ i, s'.observe j = s.observe j)
      ∧ (ok = true ↔ ∀ mo os object, s.find i mo = some os → s.heap[os]? = some object →
        ¬m.Refuses mo object)
      ∧ (ok = true → ∀ mo, s'.observe i mo = (s.observe i mo).map (m.copiedIn mo)) := by
  have hmem : ∀ mo os, (mo, os) ∈ space.objects.elts.toList ↔ s.find i mo = some os := by
    intro mo os
    rw [find, hspace, Option.bind_some, AddressSpace.findObject, ImmutableMap.lookup,
      Node.lookup_eq mo space.objects.ordered, ← KeyedList.toMap_keyOf space.objects.ordered,
      Option.map_eq_some_iff]
    refine ⟨fun hb => ⟨_, hb, rfl⟩, ?_⟩
    rintro ⟨⟨mo', os'⟩, hb, rfl⟩
    obtain rfl : mo' = mo := KeyedList.keyOf_of_toMap hb
    exact hb
  obtain ⟨ok, s', hrun, h', hothers, hok, hcopied⟩ :=
    copyInLoop_spec (m := m) space.objects.ordered h fun b hb => (hmem b.1 b.2).mp hb
  refine ⟨ok, s', by rw [copyInConcretes, hspace, Option.bind_some, hrun], h', ?_, ?_, ?_⟩
  · exact fun j hj => funext fun mo => hothers j mo fun heq => absurd heq hj
  · rw [hok, Prod.forall]
    simp only [hmem]
    grind
  · intro htrue mo
    cases hmo : s.find i mo with
    | some os => exact hcopied htrue (mo, os) ((hmem mo os).mpr hmo)
    | none =>
      have hnone : s.observe i mo = none := by rw [observe, hmo]; rfl
      rw [hnone, hothers i mo fun _ os hb => ?_, hnone]
      · rfl
      · exact absurd (hmo.symm.trans ((hmem mo os).mp hb)) (by simp)

theorem copyInConcretes_isolates_boundOnce :
    ∃ ok s', (⟨fun _ => false, fun _ => 9, id, fun b _ => b⟩ : NativeMemory ℕ ℕ ℕ).copyInConcretes
        boundOnce 0 = some (ok, s')
      ∧ ∀ j ≠ 0, s'.observe j = boundOnce.observe j :=
  (copyInConcretes_isolates (reaches_boundOnce KeyLasts trivial trivial) rfl).imp fun _ =>
    Exists.imp fun _ h => ⟨h.1, h.2.2.1⟩

end NativeMemory

end AddressSpaces

end Xklee
