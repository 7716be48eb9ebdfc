/-
The reads of an expression: `findReads` in `lib/Expr/ExprUtil.cpp`.

`findReads` with `visitUpdates` collects every read that occurs in an expression,
inside the indices and values of update nodes as well. It walks the expression
with a stack, a set of visited expressions and a set of visited update lists.
No read is missed, and the reason to care is `eval_congr`: the value of an
expression depends on the bytes its reads name and on nothing else.
-/
import Xklee.Data.Worklist
import Xklee.Expr.Semantics

set_option autoImplicit false

namespace Xklee

/-! ## Sub-expressions -/

mutual

/-- The expression and everything in it, update nodes included. -/
def Expr.deep : Expr → List Expr
  | .Constant c => [.Constant c]
  | .NotOptimized e => .NotOptimized e :: e.deep
  | .Read ul i => .Read ul i :: (i.deep ++ ul.deep)
  | .Select c t f => .Select c t f :: (c.deep ++ (t.deep ++ f.deep))
  | .Concat l r => .Concat l r :: (l.deep ++ r.deep)
  | .Extract e off w => .Extract e off w :: e.deep
  | .Cast k e w => .Cast k e w :: e.deep
  | .Not e => .Not e :: e.deep
  | .Binary k l r => .Binary k l r :: (l.deep ++ r.deep)
  | .Cmp k l r => .Cmp k l r :: (l.deep ++ r.deep)

def UpdateList.deep : UpdateList → List Expr
  | .root _ => []
  | .extend i v next => i.deep ++ (v.deep ++ next.deep)

end

theorem UpdateList.deep_eq (ul : UpdateList) : ul.deep = ul.exprs.flatMap Expr.deep := by
  induction ul using UpdateList.nodeInduction with
  | root a => rfl
  | extend i v next ih =>
    change i.deep ++ (v.deep ++ next.deep) = (i :: v :: next.exprs).flatMap Expr.deep
    rw [ih, List.flatMap_cons, List.flatMap_cons]

/-- An expression is followed by what is in its parts. -/
theorem Expr.deep_eq (e : Expr) : e.deep = e :: e.parts.flatMap Expr.deep := by
  cases e with
  | Constant c => rfl
  | Read ul i =>
    change _ :: (i.deep ++ ul.deep) = _ :: (i :: ul.exprs).flatMap Expr.deep
    rw [UpdateList.deep_eq, List.flatMap_cons]
  | NotOptimized e | Extract e _ _ | Cast _ e _ | Not e =>
    change _ :: e.deep = _ :: [e].flatMap Expr.deep
    rw [List.flatMap_singleton]
  | Select c t f =>
    change _ :: (c.deep ++ (t.deep ++ f.deep)) = _ :: [c, t, f].flatMap Expr.deep
    rw [List.flatMap_cons, List.flatMap_cons, List.flatMap_singleton]
  | Concat l r | Binary _ l r | Cmp _ l r =>
    change _ :: (l.deep ++ r.deep) = _ :: [l, r].flatMap Expr.deep
    rw [List.flatMap_cons, List.flatMap_singleton]

variable {ul : UpdateList} {e x k : Expr} {σ τ : Env}

theorem Expr.mem_deep_iff : x ∈ e.deep ↔ x = e ∨ ∃ k ∈ e.parts, x ∈ k.deep := by
  rw [Expr.deep_eq, List.mem_cons, List.mem_flatMap]

theorem Expr.mem_deep_self (e : Expr) : e ∈ e.deep := Expr.mem_deep_iff.mpr (.inl rfl)

theorem Expr.mem_deep_of_part (hk : k ∈ e.parts) : k ∈ e.deep :=
  Expr.mem_deep_iff.mpr (.inr ⟨k, hk, k.mem_deep_self⟩)

/-- Sub-expressions of sub-expressions are sub-expressions. -/
theorem Expr.deep_trans {y : Expr} (hx : x ∈ e.deep) (hy : y ∈ x.deep) : y ∈ e.deep := by
  induction e using Expr.partsInduction with | _ e ih =>
  rcases Expr.mem_deep_iff.mp hx with rfl | ⟨k, hk, hxk⟩
  · exact hy
  · exact Expr.mem_deep_iff.mpr (.inr ⟨k, hk, ih k hk hxk⟩)

/-! ## What an expression depends on -/

/-- The assignments agree on the bytes an expression may read: one byte for a
read at a constant index, the whole array for any other read. -/
def AgreeOnReads (σ τ : Env) (e : Expr) : Prop :=
  ∀ ul i, .Read ul i ∈ e.deep → ∀ n, (∀ c, i = .Constant c → n = c.toNat) →
    ul.array.initial σ n = ul.array.initial τ n

theorem AgreeOnReads.part (h : AgreeOnReads σ τ e) (hk : k ∈ e.parts) :
    AgreeOnReads σ τ k :=
  fun ul i hmem => h ul i (Expr.deep_trans (Expr.mem_deep_of_part hk) hmem)

/-- Updates with the same indices and values read alike where the array does. -/
theorem UpdateList.read_congr {n : ℕ} (h : ∀ k ∈ ul.exprs, k.eval σ = k.eval τ)
    (hn : ul.array.initial σ n = ul.array.initial τ n) : ul.read σ n = ul.read τ n := by
  induction ul using UpdateList.nodeInduction with
  | root a => exact hn
  | extend i v next ih =>
    have hi : i.eval σ = i.eval τ := h i (by simp [UpdateList.exprs])
    have hv : v.eval σ = v.eval τ := h v (by simp [UpdateList.exprs])
    have hnext : next.read σ n = next.read τ n :=
      ih (fun k hk => h k (by simp [UpdateList.exprs, hk])) hn
    rw [UpdateList.read_extend, UpdateList.read_extend, hi, hv, hnext]

/-- The value of an expression depends on the bytes its reads name. -/
theorem Expr.eval_congr (h : AgreeOnReads σ τ e) :
    e.eval σ = e.eval τ := by
  induction e using Expr.partsInduction with | _ e ih =>
  have hk : ∀ k ∈ e.parts, k.eval σ = k.eval τ := fun k hk => ih k hk (h.part hk)
  cases e with
  | Constant c => rfl
  | NotOptimized e =>
    rw [Expr.eval_NotOptimized, Expr.eval_NotOptimized, hk e (by simp [Expr.parts, Expr.kids])]
  | Read ul i =>
    have hi : i.eval σ = i.eval τ := hk i (by simp [Expr.parts])
    rw [Expr.eval_Read, Expr.eval_Read, hi]
    have hread : ul.read σ (i.eval τ).toNat = ul.read τ (i.eval τ).toNat := by
      refine UpdateList.read_congr (fun k hmem => hk k (by simp [Expr.parts, hmem])) ?_
      refine h ul i (Expr.mem_deep_self _) _ (fun c hc => ?_)
      rw [hc, Expr.eval_Constant]
    rw [hread]
  | Select c t f =>
    rw [Expr.eval_Select, Expr.eval_Select, hk c (by simp [Expr.parts, Expr.kids]),
      hk t (by simp [Expr.parts, Expr.kids]), hk f (by simp [Expr.parts, Expr.kids])]
  | Concat l r =>
    rw [Expr.eval_Concat, Expr.eval_Concat, hk l (by simp [Expr.parts, Expr.kids]),
      hk r (by simp [Expr.parts, Expr.kids])]
  | Extract e off w =>
    rw [Expr.eval_Extract, Expr.eval_Extract, hk e (by simp [Expr.parts, Expr.kids])]
  | Cast k e w =>
    rw [Expr.eval_Cast, Expr.eval_Cast, hk e (by simp [Expr.parts, Expr.kids])]
  | Not e => rw [Expr.eval_Not, Expr.eval_Not, hk e (by simp [Expr.parts, Expr.kids])]
  | Binary k l r =>
    rw [Expr.eval_Binary, Expr.eval_Binary, hk l (by simp [Expr.parts, Expr.kids]),
      hk r (by simp [Expr.parts, Expr.kids])]
  | Cmp k l r =>
    rw [Expr.eval_Cmp, Expr.eval_Cmp, hk l (by simp [Expr.parts, Expr.kids]),
      hk r (by simp [Expr.parts, Expr.kids])]

/-! ## `findReads` -/

/-- A `ReadExpr`: its updates and its index. -/
abbrev ReadExpr := UpdateList × Expr

namespace findReads

/-- The update lists seen so far and the reads found so far. -/
structure Found where
  updates : List UpdateList
  results : List ReadExpr

/-- The body of the loop: what to push, and the new results. Constants are never
pushed. -/
def visit (found : Found) : Expr → List Expr × Found
  | .Read ul index =>
      let results := found.results ++ [(ul, index)]
      if ul ∈ found.updates then
        ([index].filter (!·.isConstant), ⟨found.updates, results⟩)
      else
        ((index :: ul.exprs).filter (!·.isConstant), ⟨ul :: found.updates, results⟩)
  | top => (top.kids.filter (!·.isConstant), found)

/-- Every non-constant expression of the list was visited. -/
def Seen (ks visited : List Expr) : Prop :=
  ∀ k ∈ ks, k.isConstant = false → k ∈ visited

theorem Seen.mono {ks v v' : List Expr} (h : Seen ks v) (hv : ∀ y ∈ v, y ∈ v') : Seen ks v' :=
  fun k hk hc => hv k (h k hk hc)

/-- The update lists seen have all their expressions visited. -/
def Inv (visited : List Expr) (found : Found) : Prop :=
  ∀ ul ∈ found.updates, Seen ul.exprs visited

/-- The parts of the expression are visited and, if it is a read, it is among the
results. -/
def Done (e : Expr) (visited : List Expr) (found : Found) : Prop :=
  Seen e.parts visited ∧ ∀ ul i, e = .Read ul i → (ul, i) ∈ found.results

theorem visit_of_not_read (found : Found) {e : Expr} (h : ∀ ul i, e ≠ .Read ul i) :
    visit found e = (e.parts.filter (!·.isConstant), found) := by
  cases e with
  | Read ul i => exact absurd rfl (h ul i)
  | _ => rfl

theorem results_subset_visit (found : Found) (e : Expr) :
    found.results ⊆ (visit found e).2.results := by
  cases e with
  | Read ul i =>
    rw [visit]
    split <;> exact List.subset_append_left _ _
  | _ => exact fun _ h => h

/-- Pushed expressions are parts. -/
theorem visit_subset (found : Found) (e : Expr) : (visit found e).1 ⊆ e.parts := by
  intro k hk
  by_cases hr : ∃ ul i, e = .Read ul i
  · obtain ⟨ul, i, rfl⟩ := hr
    rw [visit] at hk
    split at hk
    · have hki := List.mem_of_mem_filter hk
      exact List.mem_singleton.mp hki ▸ List.mem_cons_self
    · have hki : k ∈ (i :: ul.exprs).filter (!·.isConstant) := hk
      exact List.mem_of_mem_filter hki
  · rw [visit_of_not_read found (fun ul i h => hr ⟨ul, i, h⟩)] at hk
    exact List.mem_of_mem_filter hk

theorem mem_filter_of_not_isConstant {ks : List Expr} {k : Expr} (hk : k ∈ ks)
    (hc : k.isConstant = false) : k ∈ ks.filter (!·.isConstant) :=
  List.mem_filter.mpr ⟨hk, by simp [hc]⟩

theorem visitRule (e : Expr) : Worklist.VisitRule visit e.deep Inv Done where
  subset r x hx k hk :=
    Expr.deep_trans hx (Expr.mem_deep_of_part (visit_subset r x hk))
  inv r x v v' hinv hv' := by
    have hsub : ∀ y ∈ v, y ∈ v' := fun y hy => (hv' y).mpr (.inl hy)
    by_cases hr : ∃ ul i, x = .Read ul i
    · obtain ⟨ul, i, rfl⟩ := hr
      rw [visit] at hv' ⊢
      split
      next => exact fun ul' hul' => (hinv ul' hul').mono hsub
      next hnew =>
        rw [if_neg hnew] at hv'
        intro ul' hul'
        rcases List.mem_cons.mp hul' with rfl | hul'
        · intro k hk hc
          exact (hv' k).mpr (.inr (mem_filter_of_not_isConstant (List.mem_cons_of_mem _ hk) hc))
        · exact (hinv ul' hul').mono hsub
    · rw [visit_of_not_read r (fun ul i h => hr ⟨ul, i, h⟩)]
      exact fun ul' hul' => (hinv ul' hul').mono hsub
  done r x v v' hinv hv' := by
    by_cases hr : ∃ ul i, x = .Read ul i
    · obtain ⟨ul, i, rfl⟩ := hr
      rw [visit] at hv' ⊢
      split
      next hold =>
        -- the updates were seen before, so that their expressions are visited
        rw [if_pos hold] at hv'
        refine ⟨fun k hk hc => (hv' k).mpr ?_, fun ul' i' h => by simp_all⟩
        rcases List.mem_cons.mp hk with rfl | hk
        · exact .inr (mem_filter_of_not_isConstant List.mem_cons_self hc)
        · exact .inl (hinv ul hold k hk hc)
      next hnew =>
        rw [if_neg hnew] at hv'
        refine ⟨fun k hk hc => (hv' k).mpr ?_, fun ul' i' h => by simp_all⟩
        exact .inr (mem_filter_of_not_isConstant hk hc)
    · have hr' : ∀ ul i, x ≠ .Read ul i := fun ul i h => hr ⟨ul, i, h⟩
      rw [visit_of_not_read r hr'] at hv' ⊢
      exact ⟨fun k hk hc => (hv' k).mpr (.inr (mem_filter_of_not_isConstant hk hc)),
        fun ul i h => absurd h (hr' ul i)⟩
  mono r x v v' y hy hv' :=
    ⟨hy.1.mono (fun z hz => (hv' z).mpr (.inl hz)),
      fun ul i h => results_subset_visit r x (hy.2 ul i h)⟩

end findReads

/-- `findReads` with `visitUpdates`: the reads in the order they are found. There
are at most as many rounds as sub-expressions. -/
def findReads (e : Expr) : List ReadExpr :=
  let start : Worklist Expr := if e.isConstant then ⟨[], []⟩ else ⟨[e], [e]⟩
  (start.search findReads.visit e.deep.length ⟨[], []⟩).2.results

/-- `findReads` finds every read. -/
theorem mem_findReads {i : Expr} (h : .Read ul i ∈ e.deep) :
    (ul, i) ∈ findReads e := by
  cases hc : e.isConstant with
  | true =>
    obtain ⟨c, rfl⟩ := Expr.eq_Constant_of_isConstant hc
    simp [Expr.deep_eq, Expr.parts, Expr.kids] at h
  | false =>
    have hspec := Worklist.search_spec (findReads.visitRule e) e.deep.length ⟨[e], [e]⟩ ⟨[], []⟩
      (by simpa using e.mem_deep_self) (by simp) (by simp) (by simp [findReads.Inv]) (by simp)
      (by simp)
    obtain ⟨-, hroot, -, hdone⟩ := hspec
    -- everything below a visited expression was visited
    have hall : ∀ x ∈ ((⟨[e], [e]⟩ : Worklist Expr).search findReads.visit e.deep.length
        ⟨[], []⟩).1.visited, ∀ ul i, .Read ul i ∈ x.deep → (ul, i) ∈ findReads e := by
      intro x
      induction x using Expr.partsInduction with | _ x ih =>
      intro hx ul i hread
      rw [findReads, if_neg (by simp [hc])]
      rcases Expr.mem_deep_iff.mp hread with rfl | ⟨k, hk, hread⟩
      · exact (hdone _ hx).2 ul i rfl
      · cases hkc : k.isConstant with
        | true =>
          obtain ⟨c, rfl⟩ := Expr.eq_Constant_of_isConstant hkc
          simp [Expr.deep_eq, Expr.parts, Expr.kids] at hread
        | false =>
          have := ih k hk ((hdone x hx).1 k hk hkc) ul i hread
          rwa [findReads, if_neg (by simp [hc])] at this
    exact hall e (hroot e (by simp)) ul i h

end Xklee
