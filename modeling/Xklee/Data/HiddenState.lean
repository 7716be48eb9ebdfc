/-
Computations whose state does not show.

A cache changes how a result is found, never which result it is. `Yields I m c` says so of one
computation: from every state with `I` it returns `c`, and the state it leaves has `I`. The
invariant `I` is what the cache promises, and `c` is what the computation would return without it.
There is one rule for each way of building a computation.
-/
import Mathlib.Init

set_option autoImplicit false

universe u

namespace HiddenState

variable {σ γ δ : Type u}

/-- From every state with the invariant this is returned, and the invariant holds afterwards. -/
def Yields (I : σ → Prop) (m : StateM σ γ) (c : γ) : Prop :=
  ∀ s, I s → (m.run s).1 = c ∧ I (m.run s).2

variable {I : σ → Prop}

theorem yields_pure (c : γ) : Yields I (pure c) c := fun _ hs => ⟨rfl, hs⟩

variable {c : γ} {m : StateM σ γ} {d : δ}

theorem yields_bind {k : γ → StateM σ δ} (hm : Yields I m c) (hk : Yields I (k c) d) :
    Yields I (m >>= k) d := by
  intro s hs
  obtain ⟨hc, hs'⟩ := hm s hs
  have hstep : (m >>= k).run s = (k c).run (m.run s).2 := by
    rw [← hc]
    rfl
  rw [hstep]
  exact hk _ hs'

/-- What depends on the state is settled state by state. -/
theorem yields_get {k : σ → StateM σ δ} (hk : ∀ s, I s → ((k s).run s).1 = d ∧ I ((k s).run s).2) :
    Yields I (get >>= k) d := hk

/-- A change of the state that keeps the invariant. -/
theorem yields_modify {f : σ → σ} (hf : ∀ s, I s → I (f s)) : Yields I (modify f) PUnit.unit :=
  fun s hs => ⟨rfl, hf s hs⟩

theorem Yields.run_eq {s : σ} (h : Yields I m c) (hs : I s) :
    (m.run s).1 = c := (h s hs).1

/-! ## Comparisons one after the other -/

section Comparisons

variable {σ : Type} {I : σ → Prop}

/-- `if (int res = first) return res;` and then the rest. -/
def orElse (first rest : StateM σ Ordering) : StateM σ Ordering := do
  match ← first with
  | .eq => rest
  | res => pure res

theorem yields_orElse {first rest : StateM σ Ordering} {c d : Ordering} (hfirst : Yields I first c)
    (hrest : c = .eq → Yields I rest d) : Yields I (orElse first rest) (c.then d) := by
  apply yields_bind hfirst
  cases c with
  | eq => exact hrest rfl
  | lt => exact yields_pure Ordering.lt
  | gt => exact yields_pure Ordering.gt

end Comparisons

end HiddenState
