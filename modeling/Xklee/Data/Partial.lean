/-
Lists and partial functions.

A partial function that is mapped over a list, or folded over it, with the relations that go
through such a loop element by element.
-/
import Mathlib.Data.List.Forall2
import Mathlib.Data.Nat.Notation

set_option autoImplicit false

universe u v w

namespace Partial

variable {α : Type u} {β : Type v} {γ : Type w}

/-! ## Mapping -/

/-- What a list is mapped to, element by element. -/
theorem mapM_eq_some_iff {f : α → Option β} {l : List α} {l' : List β} :
    l.mapM f = some l' ↔ List.Forall₂ (fun a b => f a = some b) l l' := by
  induction l generalizing l' with
  | nil =>
    rw [List.forall₂_nil_left_iff]
    exact ⟨fun h => (Option.some.inj h).symm, fun h => h ▸ rfl⟩
  | cons a l ih =>
    rw [List.mapM_cons]
    constructor
    · intro h
      obtain ⟨b, hb, h⟩ := Option.bind_eq_some_iff.mp h
      obtain ⟨bs, hbs, h⟩ := Option.bind_eq_some_iff.mp h
      obtain rfl := Option.some.inj h
      exact .cons hb (ih.mp hbs)
    · rintro (_ | ⟨hb, hbs⟩)
      rw [hb, ih.mpr hbs]
      rfl

/-- A partial function that is defined on the elements of a list can be mapped over it. -/
theorem exists_mapM {f : α → Option β} {l : List α} (h : ∀ a ∈ l, ∃ b, f a = some b) :
    ∃ l', l.mapM f = some l' := by
  induction l with
  | nil => exact ⟨[], rfl⟩
  | cons a l ih =>
    obtain ⟨⟨b, hb⟩, hl⟩ := List.forall_mem_cons.mp h
    obtain ⟨l', hl'⟩ := ih hl
    refine ⟨b :: l', ?_⟩
    rw [List.mapM_cons, hb, hl']
    rfl

/-! ## Counting down -/

/-- A loop from the top of a range down to 0 that keeps an invariant. -/
theorem foldrM_range {f : ℕ → β → Option β} {P : ℕ → β → Prop} {n : ℕ}
    (h : ∀ i < n, ∀ b, P (i + 1) b → ∃ b', f i b = some b' ∧ P i b') {b : β} (hb : P n b) :
    ∃ b', (List.range n).foldrM f b = some b' ∧ P 0 b' := by
  induction n generalizing b with
  | zero => exact ⟨b, rfl, hb⟩
  | succ n ih =>
    obtain ⟨b', hstep, hb'⟩ := h n (Nat.lt_succ_self n) b hb
    obtain ⟨b'', hrest, hb''⟩ := ih (fun i hi => h i (Nat.lt_succ_of_lt hi)) hb'
    refine ⟨b'', ?_, hb''⟩
    rw [List.range_succ, List.foldrM_append]
    change ((f n b >>= fun b' => some b') >>= fun b' => (List.range n).foldrM f b') = _
    rw [hstep]
    exact hrest

/-- The last round of a loop over a range. -/
theorem foldlM_range_succ (f : β → ℕ → Option β) (b : β) (n : ℕ) :
    (List.range (n + 1)).foldlM f b = ((List.range n).foldlM f b).bind fun b => f b n := by
  rw [List.range_succ, List.foldlM_append]
  show ((List.range n).foldlM f b).bind (fun b => (f b n).bind some) = _
  refine congrArg _ ?_
  funext b
  cases f b n with
  | none => rfl
  | some b' => rfl

/-! ## Assertions -/

/-- An assertion that holds. -/
theorem guard_bind {α : Type} {p : Prop} [Decidable p] (h : p) (f : Unit → Option α) :
    ((guard p : Option Unit) >>= f) = f () := by
  rw [guard, if_pos h]
  rfl

/-- The rest of a computation whose first part is known. -/
theorem bind_of_eq {α β : Type u} {x : Option α} {a : α} (h : x = some a) (f : α → Option β) :
    (x >>= f) = f a := by
  rw [h, Option.bind_eq_bind, Option.bind_some]

/-! ## Two computations -/

/-- Computations that are related and go on in a related way. -/
theorem bind_rel {α' β' : Type*} {R : α → α' → Prop} {R' : β → β' → Prop} {x : Option α}
    {x' : Option α'} {f : α → Option β} {f' : α' → Option β'} (hx : Option.Rel R x x')
    (hf : ∀ a a', R a a' → Option.Rel R' (f a) (f' a')) :
    Option.Rel R' (x.bind f) (x'.bind f') := by
  cases hx with
  | some h => exact hf _ _ h
  | none => exact .none

/-- Two loops that are related in every step are related at the end. -/
theorem foldlM_rel {δ : Type*} {R : β → γ → Prop} {f : β → α → Option β} {g : γ → δ → Option γ}
    {l : List α} {l' : List δ}
    (h : List.Forall₂ (fun a d => ∀ b c, R b c → Option.Rel R (f b a) (g c d)) l l') {b : β} {c : γ}
    (hbc : R b c) : Option.Rel R (l.foldlM f b) (l'.foldlM g c) := by
  induction h generalizing b c with
  | nil => exact .some hbc
  | cons had _ ih =>
    rw [List.foldlM_cons, List.foldlM_cons]
    exact bind_rel (had b c hbc) fun _ _ => ih

end Partial
