/-
Constraint independence: `lib/Solver/IndependentSolver.cpp`.

`getIndependentConstraints` keeps the constraints of a query that share bytes
with its expression, directly or through other constraints. It collects the
bytes each expression may read in an `IndependentElementSet`, and moves
constraints from a worklist to the result as long as the closure grows.

Two facts make this sound. An element set covers every byte an expression
depends on, so that two assignments that agree on the set give the expression
the same value. And when the loop stops, every kept constraint lies inside the
closure and every dropped one outside, so that a solution of the kept ones and a
solution of all of them can be glued along the closure.
-/
import Mathlib.Data.List.AList
import Xklee.Expr.Reads
import Xklee.Solver.Query

set_option autoImplicit false

namespace Xklee

/-! ## Element sets -/

/-- Bytes of arrays: some bytes of the arrays in `elements`, and all bytes of the
arrays in `wholeObjects`. -/
structure IndependentElementSet where
  elements : AList (fun _ : KArray => Finset ℕ)
  wholeObjects : List KArray

namespace IndependentElementSet

/-- The set contains the byte `n` of the array `a`. -/
def Covers (s : IndependentElementSet) (a : KArray) (n : ℕ) : Prop :=
  a ∈ s.wholeObjects ∨ ∃ dis, s.elements.lookup a = some dis ∧ n ∈ dis

/-- The body of the constructor's loop. -/
def addRead (s : IndependentElementSet) (re : ReadExpr) : IndependentElementSet :=
  let array := re.1.array
  -- Reads of a constant array don't alias.
  if array.isConstantArray = true ∧ re.1.hasUpdates = false then s
  else if array ∈ s.wholeObjects then s
  else
    match re.2 with
    | .Constant CE =>
        let dis := (s.elements.lookup array).getD ∅
        { s with elements := s.elements.insert array (insert CE.toNat dis) }
    | _ => { elements := s.elements.erase array, wholeObjects := array :: s.wholeObjects }

/-- The element set of an expression. -/
def ofExpr (e : Expr) : IndependentElementSet := (findReads e).foldl addRead ⟨∅, []⟩

/-- `IndependentElementSet::intersects`. -/
def intersects (s b : IndependentElementSet) : Bool :=
  s.wholeObjects.any (fun array => decide (array ∈ b.wholeObjects) || (b.elements.lookup array).isSome)
    || s.elements.entries.any (fun it =>
      decide (it.1 ∈ b.wholeObjects)
        || match b.elements.lookup it.1 with
          | some dis => decide (∃ n ∈ it.2, n ∈ dis)
          | none => false)

/-- The first loop of `IndependentElementSet::add`, with the flag `modified`. -/
def addWholeObject (s : IndependentElementSet × Bool) (array : KArray) :
    IndependentElementSet × Bool :=
  match s.1.elements.lookup array with
  | some _ => (⟨s.1.elements.erase array, s.1.wholeObjects.insert array⟩, true)
  | none =>
      if array ∈ s.1.wholeObjects then s
      else ({ s.1 with wholeObjects := array :: s.1.wholeObjects }, true)

/-- The second loop of `IndependentElementSet::add`. -/
def addElements (s : IndependentElementSet × Bool) (it : (_ : KArray) × Finset ℕ) :
    IndependentElementSet × Bool :=
  if it.1 ∈ s.1.wholeObjects then s
  else
    match s.1.elements.lookup it.1 with
    | none => ({ s.1 with elements := s.1.elements.insert it.1 it.2 }, true)
    | some dis =>
        ({ s.1 with elements := s.1.elements.insert it.1 (dis ∪ it.2) },
          s.2 || !decide (it.2 ⊆ dis))

/-- `IndependentElementSet::add`: the union, and whether the set is changed. -/
def add (s b : IndependentElementSet) : IndependentElementSet × Bool :=
  b.elements.entries.foldl addElements (b.wholeObjects.foldl addWholeObject (s, false))

/-! ### The set of an expression covers its reads -/

variable {s b : IndependentElementSet} {a a' : KArray} {dis : Finset ℕ} {n : ℕ} {re : ReadExpr}

theorem covers_of_lookup (h : s.elements.lookup a = some dis) (hn : n ∈ dis) : s.Covers a n :=
  .inr ⟨dis, h, hn⟩

theorem Covers.insert (h : s.Covers a n) (hdis : ∀ d, s.elements.lookup a' = some d → d ⊆ dis) :
    (⟨s.elements.insert a' dis, s.wholeObjects⟩ : IndependentElementSet).Covers a n := by
  rcases h with h | ⟨d, hd, hn⟩
  · exact .inl h
  · by_cases ha : a = a'
    · subst ha
      exact covers_of_lookup (AList.lookup_insert _) (hdis d hd hn)
    · exact covers_of_lookup ((AList.lookup_insert_ne ha).trans hd) hn

theorem Covers.erase {objects : List KArray} (h : s.Covers a n)
    (ho : ∀ x, x = a' ∨ x ∈ s.wholeObjects → x ∈ objects) :
    (⟨s.elements.erase a', objects⟩ : IndependentElementSet).Covers a n := by
  rcases h with h | ⟨d, hd, hn⟩
  · exact .inl (ho a (.inr h))
  · by_cases ha : a = a'
    · exact .inl (ho a (.inl ha))
    · exact covers_of_lookup ((AList.lookup_erase_ne ha).trans hd) hn

theorem Covers.addRead (h : s.Covers a n) (re : ReadExpr) : (s.addRead re).Covers a n := by
  unfold IndependentElementSet.addRead
  dsimp only
  split
  next => exact h
  next =>
    split
    next => exact h
    next =>
      split
      next CE hCE =>
        refine h.insert (fun d hd => ?_)
        rw [hd, Option.getD_some]
        exact Finset.subset_insert _ _
      next => exact h.erase (fun x hx => List.mem_cons.mpr hx)

/-- The bytes a read may take from its array. -/
def ReadBytes (re : ReadExpr) (n : ℕ) : Prop := ∀ c, re.2 = .Constant c → n = c.toNat

theorem addRead_covers (s : IndependentElementSet) (ha : re.1.array.isConstantArray = false)
    (hn : ReadBytes re n) :
    (s.addRead re).Covers re.1.array n := by
  unfold addRead
  dsimp only
  rw [if_neg (by simp [ha])]
  split
  next hw => exact .inl hw
  next =>
    split
    next CE hCE =>
      rw [hn CE hCE]
      exact covers_of_lookup (AList.lookup_insert _) (Finset.mem_insert_self _ _)
    next => exact .inl List.mem_cons_self

theorem foldl_addRead_covers (reads : List ReadExpr) (s : IndependentElementSet) (hre : re ∈ reads)
    (ha : re.1.array.isConstantArray = false) (hn : ReadBytes re n) :
    (reads.foldl addRead s).Covers re.1.array n := by
  have hkeep : ∀ (reads : List ReadExpr) (s : IndependentElementSet),
      s.Covers re.1.array n → (reads.foldl addRead s).Covers re.1.array n := by
    intro reads
    induction reads with
    | nil => exact fun _ h => h
    | cons re' reads ih => exact fun s h => ih _ (h.addRead re')
  induction reads generalizing s with
  | nil => exact absurd hre List.not_mem_nil
  | cons re' reads ih =>
    rcases List.mem_cons.mp hre with rfl | hre
    · exact hkeep reads _ (addRead_covers s ha hn)
    · exact ih _ hre

/-- Assignments that agree on the element set of an expression give it the same
value. -/
theorem eval_congr_of_covers {σ τ : Env} {e : Expr}
    (h : ∀ a n, (ofExpr e).Covers a n → σ a n = τ a n) : e.eval σ = e.eval τ := by
  refine Expr.eval_congr (fun ul i hread n hn => ?_)
  rw [KArray.initial, KArray.initial]
  split
  next => rfl
  next ha =>
    rw [h _ _ (foldl_addRead_covers _ _ (mem_findReads hread) (by simpa using ha) hn)]

/-! ### `intersects` and `add` -/

/-- No byte is in both sets. -/
def Apart (s b : IndependentElementSet) : Prop := ∀ a n, ¬(s.Covers a n ∧ b.Covers a n)

theorem apart_of_not_intersects (h : s.intersects b = false) :
    s.Apart b := by
  rw [intersects, Bool.or_eq_false_iff, List.any_eq_false, List.any_eq_false] at h
  obtain ⟨hw, he⟩ := h
  rintro a n ⟨hs, hb⟩
  rcases hs with hs | ⟨dis, hdis, hn⟩
  · -- the whole array against anything of it
    have := hw a hs
    rcases hb with hb | ⟨dis', hdis', -⟩
    · simp [hb] at this
    · simp [hdis'] at this
  · have := he ⟨a, dis⟩ (AList.mem_lookup_iff.mp hdis)
    rcases hb with hb | ⟨dis', hdis', hn'⟩
    · simp [hb] at this
    · simp only [hdis', Bool.or_eq_true, decide_eq_true_eq, not_or, not_exists, not_and] at this
      exact this.2 n hn hn'

theorem addWholeObject_covers (s : IndependentElementSet × Bool) (array a : KArray) (n : ℕ) :
    (addWholeObject s array).1.Covers a n ↔ s.1.Covers a n ∨ a = array := by
  rw [addWholeObject]
  split
  next dis hdis =>
    constructor
    · rintro (h | ⟨d, hd, hn⟩)
      · rcases List.mem_insert_iff.mp h with rfl | h
        · exact .inr rfl
        · exact .inl (.inl h)
      · by_cases ha : a = array
        · exact .inr ha
        · exact .inl (covers_of_lookup ((AList.lookup_erase_ne ha).symm.trans hd) hn)
    · rintro (h | rfl)
      · exact h.erase (fun x hx => List.mem_insert_iff.mpr hx)
      · exact .inl (List.mem_insert_self)
  next hnone =>
    split
    next hw =>
      constructor
      · exact .inl
      · rintro (h | rfl)
        · exact h
        · exact .inl hw
    next hw =>
      constructor
      · rintro (h | h)
        · rcases List.mem_cons.mp h with rfl | h
          · exact .inr rfl
          · exact .inl (.inl h)
        · exact .inl (.inr h)
      · rintro ((h | h) | rfl)
        · exact .inl (List.mem_cons_of_mem _ h)
        · exact .inr h
        · exact .inl List.mem_cons_self

theorem addElements_covers (s : IndependentElementSet × Bool) (it : (_ : KArray) × Finset ℕ)
    (a : KArray) (n : ℕ) :
    (addElements s it).1.Covers a n ↔ s.1.Covers a n ∨ (a = it.1 ∧ n ∈ it.2) := by
  obtain ⟨b, dis⟩ := it
  rw [addElements]
  -- what inserting a larger set for `b` does
  have hins : ∀ d : Finset ℕ, (∀ d', s.1.elements.lookup b = some d' → d' ⊆ d) →
      (∀ m ∈ d, s.1.Covers b m ∨ m ∈ dis) → dis ⊆ d →
      ((⟨s.1.elements.insert b d, s.1.wholeObjects⟩ : IndependentElementSet).Covers a n
        ↔ s.1.Covers a n ∨ (a = b ∧ n ∈ dis)) := by
    intro d hd hd' hdis
    constructor
    · rintro (h | ⟨d', hl, hn⟩)
      · exact .inl (.inl h)
      · by_cases ha : a = b
        · subst ha
          obtain rfl := Option.some.inj ((AList.lookup_insert _).symm.trans hl)
          exact (hd' n hn).imp_right (fun h => ⟨rfl, h⟩)
        · exact .inl (covers_of_lookup ((AList.lookup_insert_ne ha).symm.trans hl) hn)
    · rintro (h | ⟨rfl, hn⟩)
      · exact h.insert hd
      · exact covers_of_lookup (AList.lookup_insert _) (hdis hn)
  split
  next hw =>
    constructor
    · exact .inl
    · rintro (h | ⟨rfl, -⟩)
      · exact h
      · exact .inl hw
  next hw =>
    split
    next hnone =>
      refine hins dis (fun d' hd' => ?_) (fun m hm => .inr hm) (Finset.Subset.refl _)
      rw [hnone] at hd'
      exact absurd hd' (by simp)
    next d hd =>
      refine hins (d ∪ dis) (fun d' hd' => ?_) (fun m hm => ?_) Finset.subset_union_right
      · obtain rfl := Option.some.inj (hd.symm.trans hd')
        exact Finset.subset_union_left
      · rcases Finset.mem_union.mp hm with hm | hm
        · exact .inl (covers_of_lookup hd hm)
        · exact .inr hm

/-- `add` is union. -/
theorem add_covers (s b : IndependentElementSet) (a : KArray) (n : ℕ) :
    (s.add b).1.Covers a n ↔ s.Covers a n ∨ b.Covers a n := by
  have hobjects : ∀ (l : List KArray) (s : IndependentElementSet × Bool),
      (l.foldl addWholeObject s).1.Covers a n ↔ s.1.Covers a n ∨ a ∈ l := by
    intro l
    induction l with
    | nil => simp
    | cons x l ih =>
      intro s
      rw [List.foldl_cons, ih, addWholeObject_covers, List.mem_cons, or_assoc]
  have helements : ∀ (l : List ((_ : KArray) × Finset ℕ)) (s : IndependentElementSet × Bool),
      (l.foldl addElements s).1.Covers a n ↔ s.1.Covers a n ∨ ∃ it ∈ l, a = it.1 ∧ n ∈ it.2 := by
    intro l
    induction l with
    | nil => simp
    | cons x l ih =>
      intro s
      rw [List.foldl_cons, ih, addElements_covers, List.exists_mem_cons_iff, or_assoc]
  rw [add, helements, hobjects, or_assoc]
  refine or_congr_right (or_congr_right ⟨?_, ?_⟩)
  · rintro ⟨⟨a', dis⟩, hit, rfl, hn⟩
    exact ⟨dis, AList.mem_lookup_iff.mpr hit, hn⟩
  · rintro ⟨dis, hdis, hn⟩
    exact ⟨⟨a, dis⟩, AList.mem_lookup_iff.mp hdis, rfl, hn⟩

/-- The set is unchanged when `add` says so. -/
theorem covers_of_add_unchanged (h : (s.add b).2 = false) (hc : (s.add b).1.Covers a n) :
    s.Covers a n := by
  have hobjects : ∀ (l : List KArray) (s : IndependentElementSet × Bool),
      (l.foldl addWholeObject s).2 = false →
        s.2 = false ∧ ((l.foldl addWholeObject s).1.Covers a n → s.1.Covers a n) := by
    intro l
    induction l with
    | nil => exact fun s h => ⟨h, id⟩
    | cons x l ih =>
      intro s h
      obtain ⟨hx, hl⟩ := ih _ h
      have heq : addWholeObject s x = s := by
        rw [addWholeObject] at hx ⊢
        split at hx
        next => simp at hx
        next =>
          split at hx
          next hw => rw [if_pos hw]
          next => simp at hx
      rw [heq] at hx
      refine ⟨hx, fun hc => ?_⟩
      have := hl hc
      rwa [heq] at this
  have helements : ∀ (l : List ((_ : KArray) × Finset ℕ)) (s : IndependentElementSet × Bool),
      (l.foldl addElements s).2 = false →
        s.2 = false ∧ ((l.foldl addElements s).1.Covers a n → s.1.Covers a n) := by
    intro l
    induction l with
    | nil => exact fun s h => ⟨h, id⟩
    | cons x l ih =>
      intro s h
      obtain ⟨hx, hl⟩ := ih _ h
      have hstep : s.2 = false ∧ ((addElements s x).1.Covers a n → s.1.Covers a n) := by
        have hcov := addElements_covers s x a n
        rw [addElements] at hx
        split at hx
        next hw =>
          refine ⟨hx, fun hc => ?_⟩
          rcases hcov.mp hc with h | ⟨rfl, -⟩
          · exact h
          · exact .inl hw
        next =>
          split at hx
          next => simp at hx
          next d hd =>
            simp only [Bool.or_eq_false_iff, Bool.not_eq_false', decide_eq_true_eq] at hx
            refine ⟨hx.1, fun hc => ?_⟩
            rcases hcov.mp hc with h | ⟨rfl, hn⟩
            · exact h
            · exact covers_of_lookup hd (hx.2 hn)
      exact ⟨hstep.1, fun hc => hstep.2 (hl hc)⟩
  rw [add] at h hc
  obtain ⟨h', hc'⟩ := helements _ _ h
  exact (hobjects _ _ h').2 (hc' hc)

end IndependentElementSet

/-! ## The worklist -/

open IndependentElementSet (Covers Apart)

/-- A constraint with its element set. -/
abbrev Element := Expr × IndependentElementSet

/-- What one pass over the worklist computes. -/
structure Pass where
  eltsClosure : IndependentElementSet
  done : Bool
  result : List Expr
  newWorklist : List Element

/-- The body of the inner loop. -/
def Pass.visit (p : Pass) (it : Element) : Pass :=
  if it.2.intersects p.eltsClosure then
    let (eltsClosure, changed) := p.eltsClosure.add it.2
    { p with eltsClosure := eltsClosure, done := p.done && !changed,
             result := p.result ++ [it.1] }
  else { p with newWorklist := p.newWorklist ++ [it] }

/-- The `do` loop, for at most `n` passes. It ends with the worklist of dropped
constraints. -/
def closureLoop : ℕ → IndependentElementSet → List Expr → List Element → Pass
  | 0, eltsClosure, result, worklist => ⟨eltsClosure, false, result, worklist⟩
  | n + 1, eltsClosure, result, worklist =>
      let p := worklist.foldl Pass.visit ⟨eltsClosure, true, result, []⟩
      if p.done then p else closureLoop n p.eltsClosure p.result p.newWorklist

/-- `getIndependentConstraints`: the required constraints in `result`, the
closure, and in `newWorklist` what was dropped. Every pass but the last one
shortens the worklist. -/
def getIndependentConstraints (query : Query) : Pass :=
  closureLoop (query.constraints.length + 1) (.ofExpr query.expr) []
    (query.constraints.map fun c => (c, .ofExpr c))

/-- The state of a pass after a part `seen` of the worklist: everything seen is
kept or dropped, kept elements are inside the closure, dropped ones were outside
of it at the start, and the closure is still that of the start while `done` holds. -/
structure Pass.Inv (start : IndependentElementSet) (result : List Expr) (seen : List Element)
    (p : Pass) : Prop where
  grows : ∀ a n, start.Covers a n → p.eltsClosure.Covers a n
  kept : ∃ kept : List Element, p.result = result ++ kept.map Prod.fst
    ∧ (kept ++ p.newWorklist).Perm seen
    ∧ ∀ it ∈ kept, ∀ a n, it.2.Covers a n → p.eltsClosure.Covers a n
  dropped : ∀ it ∈ p.newWorklist, it.2.Apart start
  unchanged : p.done = true → ∀ a n, p.eltsClosure.Covers a n → start.Covers a n
  shrinks : p.done = false → p.newWorklist.length < seen.length

variable {start : IndependentElementSet} {result : List Expr} {seen : List Element} {p : Pass}

theorem Pass.Inv.visit (h : p.Inv start result seen) (it : Element) :
    (p.visit it).Inv start result (seen ++ [it]) := by
  obtain ⟨kept, hres, hperm, hkept⟩ := h.kept
  have hlen : kept.length + p.newWorklist.length = seen.length := by
    simpa using hperm.length_eq
  rw [Pass.visit]
  split
  next hint =>
    have hcov := IndependentElementSet.add_covers p.eltsClosure it.2
    refine ⟨?_, ⟨kept ++ [it], ?_, ?_, ?_⟩, h.dropped, ?_, ?_⟩
    · exact fun a n ha => (hcov a n).mpr (.inl (h.grows a n ha))
    · simp [hres]
    · calc (kept ++ [it] ++ p.newWorklist).Perm (it :: (kept ++ p.newWorklist)) := by
            rw [List.append_assoc]
            exact List.perm_middle
        _ |>.Perm (it :: seen) := hperm.cons it
        _ |>.Perm (seen ++ [it]) := (List.perm_append_singleton it seen).symm
    · intro it' hit' a n ha
      rcases List.mem_append.mp hit' with hit' | hit'
      · exact (hcov a n).mpr (.inl (hkept it' hit' a n ha))
      · obtain rfl := List.mem_singleton.mp hit'
        exact (hcov a n).mpr (.inr ha)
    · intro hdone a n ha
      simp only [Bool.and_eq_true, Bool.not_eq_true'] at hdone
      exact h.unchanged hdone.1 a n (IndependentElementSet.covers_of_add_unchanged hdone.2 ha)
    · intro _
      rw [List.length_append, List.length_singleton]
      change p.newWorklist.length < _
      omega
  next hint =>
    have hapart := IndependentElementSet.apart_of_not_intersects (by simpa using hint)
    refine ⟨h.grows, ⟨kept, hres, ?_, hkept⟩, ?_, h.unchanged, ?_⟩
    · change (kept ++ (p.newWorklist ++ [it])).Perm _
      rw [← List.append_assoc]
      exact hperm.append_right [it]
    · intro it' hit'
      rcases List.mem_append.mp hit' with hit' | hit'
      · exact h.dropped it' hit'
      · obtain rfl := List.mem_singleton.mp hit'
        exact fun a n ha => hapart a n ⟨ha.1, h.grows a n ha.2⟩
    · intro hdone
      have := h.shrinks hdone
      simp only [List.length_append, List.length_singleton]
      omega

theorem Pass.Inv.foldl (worklist : List Element) (h : p.Inv start result seen) :
    (worklist.foldl Pass.visit p).Inv start result (seen ++ worklist) := by
  induction worklist generalizing seen p with
  | nil => simpa using h
  | cons it worklist ih =>
    have := ih (h.visit it)
    rwa [List.append_assoc, List.singleton_append] at this

/-- A whole pass. -/
theorem pass_inv (eltsClosure : IndependentElementSet) (result : List Expr)
    (worklist : List Element) :
    (worklist.foldl Pass.visit ⟨eltsClosure, true, result, []⟩).Inv eltsClosure result
      worklist := by
  have hstart : (⟨eltsClosure, true, result, []⟩ : Pass).Inv eltsClosure result [] :=
    ⟨fun _ _ h => h, ⟨[], by simp, List.Perm.nil, by simp⟩, by simp, fun _ _ _ h => h, by simp⟩
  simpa using hstart.foldl worklist

/-- When the loop stops: the worklist is split into kept and dropped elements,
the kept ones inside the closure and the dropped ones outside. -/
structure ClosureSplit (start : IndependentElementSet) (result : List Expr)
    (worklist : List Element) (p : Pass) : Prop where
  grows : ∀ a n, start.Covers a n → p.eltsClosure.Covers a n
  kept : ∃ kept : List Element, p.result = result ++ kept.map Prod.fst
    ∧ (kept ++ p.newWorklist).Perm worklist
    ∧ ∀ it ∈ kept, ∀ a n, it.2.Covers a n → p.eltsClosure.Covers a n
  dropped : ∀ it ∈ p.newWorklist, it.2.Apart p.eltsClosure

theorem closureLoop_split (n : ℕ) (eltsClosure : IndependentElementSet) (result : List Expr)
    (worklist : List Element) (hn : worklist.length < n) :
    ClosureSplit eltsClosure result worklist (closureLoop n eltsClosure result worklist) := by
  induction n generalizing eltsClosure result worklist with
  | zero => omega
  | succ n ih =>
    have hpass := pass_inv eltsClosure result worklist
    rw [closureLoop]
    split
    next hdone =>
      refine ⟨hpass.grows, hpass.kept, fun it hit a m ha => ?_⟩
      exact hpass.dropped it hit a m ⟨ha.1, hpass.unchanged hdone a m ha.2⟩
    next hdone =>
      have hlt := hpass.shrinks (by simpa using hdone)
      generalize worklist.foldl Pass.visit ⟨eltsClosure, true, result, []⟩ = p at *
      have hrest := ih p.eltsClosure p.result p.newWorklist (by omega)
      obtain ⟨kept, hres, hperm, hkept⟩ := hpass.kept
      obtain ⟨kept', hres', hperm', hkept'⟩ := hrest.kept
      refine ⟨fun a m ha => hrest.grows a m (hpass.grows a m ha),
        ⟨kept ++ kept', ?_, ?_, ?_⟩, hrest.dropped⟩
      · rw [hres', hres, List.map_append, List.append_assoc]
      · rw [List.append_assoc]
        exact (hperm'.append_left kept).trans hperm
      · intro it hit a m ha
        rcases List.mem_append.mp hit with hit | hit
        · exact hrest.grows a m (hkept it hit a m ha)
        · exact hkept' it hit a m ha

/-! ## Kept constraints have the consequences of all -/

section Independent

variable (query : Query)

/-- What the loop leaves behind, in terms of constraints. -/
theorem getIndependentConstraints_split :
    ClosureSplit (.ofExpr query.expr) [] (query.constraints.map fun c => (c, .ofExpr c))
      (getIndependentConstraints query) :=
  closureLoop_split _ _ _ _ (by rw [List.length_map]; exact Nat.lt_succ_self _)

theorem element_eq {it : Element} {p : List Element}
    (hp : p.Perm (query.constraints.map fun c => (c, .ofExpr c))) (hit : it ∈ p) :
    it.1 ∈ query.constraints ∧ it.2 = .ofExpr it.1 := by
  obtain ⟨c, hc, rfl⟩ := List.mem_map.mp (hp.subset hit)
  exact ⟨hc, rfl⟩

/-- Kept and dropped constraints together are the given ones. -/
theorem result_append_dropped_perm :
    ((getIndependentConstraints query).result
      ++ (getIndependentConstraints query).newWorklist.map Prod.fst).Perm query.constraints := by
  obtain ⟨kept, hres, hperm, -⟩ := (getIndependentConstraints_split query).kept
  rw [hres, List.nil_append, ← List.map_append]
  have h := hperm.map Prod.fst
  have hid : (Prod.fst ∘ fun c => (c, IndependentElementSet.ofExpr c)) = id := rfl
  rwa [List.map_map, hid, List.map_id] at h

/-- Dropped constraints share no byte with the closure. -/
theorem dropped_apart {c : Expr}
    (hc : c ∈ (getIndependentConstraints query).newWorklist.map Prod.fst) :
    Apart (.ofExpr c) (getIndependentConstraints query).eltsClosure := by
  have hsplit := getIndependentConstraints_split query
  obtain ⟨kept, -, hperm, -⟩ := hsplit.kept
  obtain ⟨it, hit, rfl⟩ := List.mem_map.mp hc
  rw [← (element_eq query hperm (List.mem_append_right _ hit)).2]
  exact hsplit.dropped it hit

/-- Gluing: a solution of the kept constraints extends to one of all constraints
that gives the expression the same value. -/
theorem exists_glued {σ τ : Env} (hσ : Satisfies σ (getIndependentConstraints query).result)
    (hτ : Satisfies τ query.constraints) :
    ∃ ρ, Satisfies ρ query.constraints ∧ query.expr.eval ρ = query.expr.eval σ := by
  classical
  obtain ⟨hgrows, ⟨kept, hres, hperm, hkept⟩, hdropped⟩ := getIndependentConstraints_split query
  generalize getIndependentConstraints query = p at *
  -- σ inside the closure, τ outside
  let ρ : Env := fun a n => if p.eltsClosure.Covers a n then σ a n else τ a n
  have hin : ∀ {e : Expr}, (∀ a n, (IndependentElementSet.ofExpr e).Covers a n →
      p.eltsClosure.Covers a n) → e.eval ρ = e.eval σ := by
    intro e he
    exact IndependentElementSet.eval_congr_of_covers (fun a n ha => if_pos (he a n ha))
  have hout : ∀ {e : Expr}, Apart (.ofExpr e) p.eltsClosure → e.eval ρ = e.eval τ := by
    intro e he
    exact IndependentElementSet.eval_congr_of_covers (fun a n ha => if_neg (fun h => he a n ⟨ha, h⟩))
  refine ⟨ρ, fun c hc => ?_, hin hgrows⟩
  have hmem : (c, IndependentElementSet.ofExpr c) ∈ kept ++ p.newWorklist :=
    hperm.mem_iff.mpr (List.mem_map.mpr ⟨c, hc, rfl⟩)
  rcases List.mem_append.mp hmem with hk | hd
  · rw [Expr.Holds, hin (hkept _ hk)]
    refine hσ c ?_
    rw [hres, List.nil_append]
    exact List.mem_map.mpr ⟨_, hk, rfl⟩
  · rw [Expr.Holds, hout (hdropped _ hd)]
    exact hτ c hc

theorem satisfies_result {σ : Env} (hσ : Satisfies σ query.constraints) :
    Satisfies σ (getIndependentConstraints query).result :=
  fun c hc => hσ c ((result_append_dropped_perm query).subset (List.mem_append_left _ hc))

variable {query} in
/-- The expression takes the same values under the kept constraints as under all. -/
theorem exists_value_iff (hsat : query.Consistent) (P : APInt → Prop) :
    (∃ σ, Satisfies σ (getIndependentConstraints query).result ∧ P (query.expr.eval σ))
      ↔ ∃ σ, Satisfies σ query.constraints ∧ P (query.expr.eval σ) := by
  obtain ⟨τ, hτ⟩ := hsat
  constructor
  · rintro ⟨σ, hσ, hv⟩
    obtain ⟨ρ, hρ, heq⟩ := exists_glued query hσ hτ
    exact ⟨ρ, hρ, heq ▸ hv⟩
  · rintro ⟨σ, hσ, hv⟩
    exact ⟨σ, satisfies_result query hσ, hv⟩

/-- The query with the kept constraints. -/
def independentQuery : Query := ⟨(getIndependentConstraints query).result, query.expr⟩

variable {query}

theorem independentQuery_valid (hsat : query.Consistent) :
    (independentQuery query).Valid ↔ query.Valid := by
  rw [← not_iff_not, Query.not_valid_iff, Query.not_valid_iff]
  exact exists_value_iff hsat (fun v => ¬v.isTrue = true)

theorem independentQuery_contradicted (hsat : query.Consistent) :
    (independentQuery query).Contradicted ↔ query.Contradicted := by
  rw [← not_iff_not, Query.not_contradicted_iff, Query.not_contradicted_iff]
  exact exists_value_iff hsat (fun v => v.isTrue = true)

theorem independentQuery_ok (hq : query.Ok) : (independentQuery query).Ok := by
  obtain ⟨σ, hσ⟩ := hq.consistent
  exact ⟨⟨σ, satisfies_result query hσ⟩, hq.isBool⟩

/-- `getIndependentConstraints` loses nothing: for a satisfiable list of
constraints the kept ones have the same consequences for the expression as all.
A constraint is kept at most as often as it is given, and no dropped constraint
shares a byte with the closure. -/
theorem getIndependentConstraints_correct (query : Query) (hsat : query.Consistent) :
    ((∀ σ, Satisfies σ (getIndependentConstraints query).result → query.expr.Holds σ)
        ↔ ∀ σ, Satisfies σ query.constraints → query.expr.Holds σ)
      ∧ ((∀ σ, Satisfies σ (getIndependentConstraints query).result → ¬query.expr.Holds σ)
        ↔ ∀ σ, Satisfies σ query.constraints → ¬query.expr.Holds σ)
      ∧ (∀ v, (∃ σ, Satisfies σ (getIndependentConstraints query).result
          ∧ query.expr.eval σ = v) ↔ ∃ σ, Satisfies σ query.constraints ∧ query.expr.eval σ = v)
      ∧ ((getIndependentConstraints query).result
          ++ (getIndependentConstraints query).newWorklist.map Prod.fst).Perm query.constraints
      ∧ (query.constraints.Nodup → (getIndependentConstraints query).result.Nodup)
      ∧ ∀ c ∈ (getIndependentConstraints query).newWorklist.map Prod.fst,
          Apart (.ofExpr c) (getIndependentConstraints query).eltsClosure := by
  have hperm := result_append_dropped_perm query
  refine ⟨independentQuery_valid hsat, independentQuery_contradicted hsat,
    fun v => exists_value_iff hsat (· = v), hperm, fun hnodup => ?_,
    fun c hc => dropped_apart query hc⟩
  exact (List.nodup_append.mp (hperm.nodup_iff.mpr hnodup)).1

end Independent

/-! ### Two runs -/

/-- The byte of a one-byte array. -/
def firstByteOf (id : ℕ) : Expr :=
  .Read (.root (.symbolic id "x" 1)) (ConstantExpr.alloc 0 32)

/-- One constraint about the array of the query, one about another array. -/
theorem getIndependentConstraints_correct_two :
    (∀ σ, Satisfies σ (getIndependentConstraints
        ⟨[.Cmp .Ult (firstByteOf 0) (ConstantExpr.alloc 5 8),
          .Cmp .Ult (firstByteOf 1) (ConstantExpr.alloc 5 8)],
          .Cmp .Ult (firstByteOf 0) (ConstantExpr.alloc 9 8)⟩).result →
        (Expr.Cmp .Ult (firstByteOf 0) (ConstantExpr.alloc 9 8)).Holds σ)
      ↔ ∀ σ, Satisfies σ [.Cmp .Ult (firstByteOf 0) (ConstantExpr.alloc 5 8),
          .Cmp .Ult (firstByteOf 1) (ConstantExpr.alloc 5 8)] →
        (Expr.Cmp .Ult (firstByteOf 0) (ConstantExpr.alloc 9 8)).Holds σ :=
  (getIndependentConstraints_correct ⟨[.Cmp .Ult (firstByteOf 0) (ConstantExpr.alloc 5 8),
      .Cmp .Ult (firstByteOf 1) (ConstantExpr.alloc 5 8)],
      .Cmp .Ult (firstByteOf 0) (ConstantExpr.alloc 9 8)⟩ ⟨fun _ _ => 0, by decide⟩).1

/-- A constraint that is given twice is kept twice. -/
theorem getIndependentConstraints_keeps_duplicates :
    ¬∀ query : Query, query.Consistent → (getIndependentConstraints query).result.Nodup := by
  intro h
  have hdup := h ⟨[.Cmp .Ult (firstByteOf 0) (ConstantExpr.alloc 5 8),
    .Cmp .Ult (firstByteOf 0) (ConstantExpr.alloc 5 8)],
    .Cmp .Ult (firstByteOf 0) (ConstantExpr.alloc 9 8)⟩ ⟨fun _ _ => 0, by decide⟩
  revert hdup
  decide

end Xklee
