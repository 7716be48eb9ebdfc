/-
Computations that remember.

A memoised function keeps a table of its results: it looks an argument up, and what it does not
find it computes, calling itself with the table, and enters. `Returns f m c` says that the table
does not show: from every table that holds values of `f` the computation `m` returns `c`, and it
leaves such a table behind. There is one rule for each way of building a computation, and with them
a memoised recursion is compared with the plain one by the induction of the plain one.
-/
import Mathlib.Data.List.Sigma

set_option autoImplicit false

universe u v w

/-- Results of a function, with their arguments. -/
abbrev Memo (α : Type u) (β : α → Type v) := List (Sigma β)

/-- The results are results of `f`. -/
def Memo.Of {α : Type u} {β : α → Type v} (f : ∀ a, β a) (table : Memo α β) : Prop :=
  ∀ p ∈ table, p.2 = f p.1

/-- A computation that reads and extends a table. -/
def MemoM (α : Type u) (β : α → Type v) (γ : Type w) := Memo α β → γ × Memo α β

namespace MemoM

variable {α : Type u} {β : α → Type v} {γ δ : Type w}

instance : Monad (MemoM.{u, v, w} α β) where
  pure c := fun table => (c, table)
  bind m k := fun table => k (m table).1 (m table).2

/-- The result without the table. -/
def run (m : MemoM α β γ) : γ := (m []).1

/-- A call: the entry of the argument, or the result of the computation, which is entered. An entry
that is there is never replaced, since the first one counts. -/
def memo [DecidableEq α] {β : α → Type w} (a : α) (compute : MemoM α β (β a)) : MemoM α β (β a) :=
  fun table =>
    match table.dlookup a with
    | some b => (b, table)
    | none => ((compute table).1, (compute table).2 ++ [⟨a, (compute table).1⟩])

/-- The computation returns this, and tables that hold values of `f` still do. -/
def Returns (f : ∀ a, β a) (m : MemoM α β γ) (c : γ) : Prop :=
  ∀ table : Memo α β, table.Of f → (m table).1 = c ∧ Memo.Of f (m table).2

section Returns

variable {f : ∀ a, β a}

theorem returns_pure (c : γ) : Returns f (pure c) c := fun _ htable => ⟨rfl, htable⟩

theorem returns_bind {m : MemoM α β γ} {c : γ} {k : γ → MemoM α β δ} {d : δ}
    (hm : Returns f m c) (hk : Returns f (k c) d) : Returns f (m >>= k) d := by
  intro table htable
  obtain ⟨hc, htable'⟩ := hm table htable
  have hstep : (m >>= k) table = k c (m table).2 := by
    rw [← hc]
    rfl
  rw [hstep]
  exact hk _ htable'

/-- A call of a memoised function gives the value of the function. -/
theorem returns_memo [DecidableEq α] {β : α → Type w} {f : ∀ a, β a} {a : α}
    {compute : MemoM α β (β a)} (h : Returns f compute (f a)) : Returns f (memo a compute) (f a) := by
  intro table htable
  unfold memo
  cases hentry : table.dlookup a with
  | some b => exact ⟨htable _ (List.of_mem_dlookup hentry), htable⟩
  | none =>
    obtain ⟨hresult, htable'⟩ := h table htable
    refine ⟨hresult, ?_⟩
    intro p hp
    rcases List.mem_append.mp hp with hp | hp
    · exact htable' p hp
    · obtain rfl := List.mem_singleton.mp hp
      exact hresult

theorem Returns.run_eq {m : MemoM α β γ} {c : γ} (h : Returns f m c) : m.run = c :=
  (h [] fun _ hp => absurd hp List.not_mem_nil).1

end Returns

end MemoM
