/-
A weighted choice as a map.

After any operations the tree has the items of an abstract map in their order, with the
weights of the map, and the queries answer from it. `choose` walks down with what is left of
`p` times the total after the items on the left: so it ends at the item in whose interval of
the cumulative weights that number lies.
-/
import Mathlib.Algebra.Order.Ring.Rat
import Mathlib.Algebra.Order.BigOperators.Group.List
import Mathlib.Tactic.Linarith
import Xklee.ADT.PDFRun

set_option autoImplicit false

namespace Xklee

variable {T W : Type}

/-! ## Cumulative weights -/

/-- The weight of a list of items together. -/
def totalWeight [Add W] [Zero W] (entries : List (T × W)) : W := (entries.map Prod.snd).sum

/-- The item whose interval of the cumulative weights has `w` in it. -/
def Picks [Add W] [Zero W] [LT W] [LE W] (entries : List (T × W)) (w : W) (item : T) : Prop :=
  ∃ before weight after, entries = before ++ (item, weight) :: after
    ∧ totalWeight before ≤ w ∧ w < totalWeight before + weight

theorem totalWeight_append [AddMonoid W] (entries entries' : List (T × W)) :
    totalWeight (entries ++ entries') = totalWeight entries + totalWeight entries' := by
  unfold totalWeight
  rw [List.map_append, List.sum_append]

theorem totalWeight_cons [AddMonoid W] (e : T × W) (entries : List (T × W)) :
    totalWeight (e :: entries) = e.2 + totalWeight entries := by
  unfold totalWeight
  rw [List.map_cons, List.sum_cons]

/-- The sum of a tree is the weight of its items. -/
theorem PDFTree.Sums.sumOf_eq [AddCommMonoid W] {t : PDFTree T W} (h : t.Sums) :
    t.sumOf = totalWeight t.entries := by
  induction t with
  | nil => rfl
  | node x l r ihl ihr =>
    obtain ⟨hx, hl, hr⟩ := h
    rw [PDFTree.sumOf, hx, PDFTree.entries, totalWeight_append, totalWeight_cons, ihl hl, ihr hr]
    show x.weight + totalWeight l.entries + totalWeight r.entries
      = totalWeight l.entries + (x.weight + totalWeight r.entries)
    abel

section Picks

variable [Field W] [LinearOrder W] {entries entries' : List (T × W)} {w : W} {item : T}

theorem Picks.left (h : Picks entries w item) (entries' : List (T × W)) :
    Picks (entries ++ entries') w item := by
  obtain ⟨before, weight, after, rfl, hle, hlt⟩ := h
  refine ⟨before, weight, after ++ entries', ?_, hle, hlt⟩
  rw [List.append_assoc, List.cons_append]

/-- The first item is picked up to its weight. -/
theorem picks_cons {e : T × W} (hnonneg : 0 ≤ w) (hlt : w < e.2) : Picks (e :: entries) w e.1 := by
  refine ⟨[], e.2, entries, rfl, hnonneg, ?_⟩
  show w < 0 + e.2
  rw [zero_add]
  exact hlt

variable [IsStrictOrderedRing W]

theorem Picks.right (h : Picks entries' (w - totalWeight entries) item) :
    Picks (entries ++ entries') w item := by
  obtain ⟨before, weight, after, rfl, hle, hlt⟩ := h
  refine ⟨entries ++ before, weight, after, (List.append_assoc _ _ _).symm, ?_, ?_⟩
  · rw [totalWeight_append]
    linarith
  · rw [totalWeight_append]
    linarith

end Picks

namespace DiscretePDF

/-! ## The choice -/

section Choose

variable [Field W] [LinearOrder W] [IsStrictOrderedRing W] [LinearOrder T] {d : DiscretePDF T W}
  {R : Multiset (ℕ × PDFNode T W)} {ctx : PDFContext T W} {t : PDFTree T W} {fuel n : ℕ} {w : W}

omit [LinearOrder T] in
/-- The loop of `choose` ends at the item with `w` in its interval, where `w` is less than the
sum. -/
theorem chooseLoop_has (h : d.Has R ctx t) (hsums : t.Sums) (hn : t.root = some n)
    (hfuel : t.size ≤ fuel) (hnonneg : 0 ≤ w) (hlt : w < totalWeight t.entries) :
    ∃ item, d.chooseLoop fuel n w = some item ∧ Picks t.entries w item := by
  induction t generalizing ctx fuel n w with
  | nil => exact absurd hn (by simp [PDFTree.root])
  | node x l r ihl ihr =>
    obtain ⟨-, hlsums, hrsums⟩ := hsums
    rw [PDFTree.size] at hfuel
    obtain ⟨fuel, rfl⟩ : ∃ m, fuel = m + 1 := ⟨fuel - 1, by omega⟩
    obtain rfl : x.place = n := Option.some.inj hn
    have hl : d.Has R (⟨true, x, r⟩ :: ctx) l := has_cons.mpr h
    have hr : d.Has R (⟨false, x, l⟩ :: ctx) r := has_cons.mpr h
    have hlsum : d.sumOf l.root = some (totalWeight l.entries) := by
      have hcells := hl.holds
      rw [add_assoc] at hcells
      rw [← hlsums.sumOf_eq]
      exact sumOf_eq hcells
    rw [PDFTree.entries, totalWeight_append, totalWeight_cons] at hlt
    rw [PDFTree.entries, chooseLoop, h.node_eq]
    simp only [Option.bind_eq_bind, Option.bind_some, hlsum]
    by_cases hleft : l.root ≠ none ∧ w < totalWeight l.entries
    · obtain ⟨m, hm⟩ := Option.ne_none_iff_exists'.mp hleft.1
      obtain ⟨item, hitem, hpicks⟩ :=
        ihl hl hlsums hm (show l.size ≤ fuel by omega) hnonneg hleft.2
      refine ⟨item, ?_, hpicks.left _⟩
      rw [if_pos hleft, hm, Option.bind_some]
      exact hitem
    · -- what is left of `w` after the items on the left
      have hw : (if l.root = none then w else w - totalWeight l.entries)
          = w - totalWeight l.entries := by
        split
        next hnone =>
          rw [root_eq_none_iff.mp hnone]
          exact (sub_zero w).symm
        next => rfl
      have hle : totalWeight l.entries ≤ w := by
        by_contra hgt
        apply hleft
        refine ⟨fun hnone => ?_, not_le.mp hgt⟩
        rw [root_eq_none_iff.mp hnone] at hgt
        exact hgt hnonneg
      rw [if_neg hleft, hw]
      by_cases hhere : w - totalWeight l.entries < x.weight ∨ r.root = none
      · rw [if_pos hhere]
        refine ⟨x.key, rfl, Picks.right (picks_cons (e := (x.key, x.weight)) (by linarith) ?_)⟩
        rcases hhere with hhere | hnone
        · exact hhere
        · rw [root_eq_none_iff.mp hnone] at hlt
          have hzero : totalWeight (PDFTree.nil : PDFTree T W).entries = 0 := rfl
          rw [hzero] at hlt
          show w - totalWeight l.entries < x.weight
          dsimp only at hlt
          linarith
      · obtain ⟨hge, hsome⟩ := not_or.mp hhere
        have hge := not_lt.mp hge
        obtain ⟨m, hm⟩ := Option.ne_none_iff_exists'.mp hsome
        dsimp only at hlt
        obtain ⟨item, hitem, hpicks⟩ := ihr (w := w - totalWeight l.entries - x.weight) hr hrsums
          hm (show r.size ≤ fuel by omega) (by linarith) (by linarith)
        refine ⟨item, ?_, ?_⟩
        · rw [if_neg hhere, hm, Option.bind_some]
          exact hitem
        · apply Picks.right
          have hone : totalWeight [(x.key, x.weight)] = x.weight := by
            rw [totalWeight_cons]
            exact add_zero _
          rw [← hone] at hpicks
          exact hpicks.right

/-- `choose` picks by the cumulative weights. -/
theorem Good.choose (h : d.Good t) (hpos : ∀ e ∈ t.entries, 0 < e.2) (hne : t.entries ≠ [])
    {p : W} (hnonneg : 0 ≤ p) (hlt : p < 1) :
    ∃ item, d.choose p = some item ∧ Picks t.entries (p * totalWeight t.entries) item := by
  have hroot : d.m_root = t.root := h.holds.m_root
  have hfuel : t.size ≤ d.fuel := by
    have hlength := h.holds.length_le
    unfold DiscretePDF.fuel
    omega
  have htotal : 0 < totalWeight t.entries := by
    apply List.sum_pos
    · intro weight hweight
      obtain ⟨e, he, rfl⟩ := List.mem_map.mp hweight
      exact hpos e he
    · intro hnil
      exact hne (List.map_eq_nil_iff.mp hnil)
  cases t with
  | nil => exact absurd rfl hne
  | node x l r =>
    have hsum : x.sum = totalWeight (PDFTree.node x l r).entries := h.sums.sumOf_eq
    have hlow : 0 ≤ p * totalWeight (PDFTree.node x l r).entries := mul_nonneg hnonneg htotal.le
    have hhigh : p * totalWeight (PDFTree.node x l r).entries
        < totalWeight (PDFTree.node x l r).entries := mul_lt_of_lt_one_left htotal hlt
    obtain ⟨item, hitem, hpicks⟩ := chooseLoop_has h.holds h.sums rfl hfuel hlow hhigh
    refine ⟨item, ?_, hpicks⟩
    have hrange : ¬(p < 0 ∨ 1 ≤ p) := not_or.mpr ⟨not_lt.mpr hnonneg, not_le.mpr hlt⟩
    unfold DiscretePDF.choose
    rw [if_neg hrange, hroot]
    show (d.node x.place).bind _ = _
    rw [h.holds.node_eq, Option.bind_some]
    dsimp only
    rw [hsum, mul_comm]
    exact hitem

end Choose

/-! ## Runs against the map -/

section Map

variable [Field W] [LinearOrder T] {d : DiscretePDF T W} {t : PDFTree T W}
  {weights : T → Option W}

/-- The queries answer from the map. -/
theorem Good.getWeight (h : d.Good t) (hlists : Lists t.entries weights) (item : T) :
    d.getWeight item = weights item ∧ d.inTree item = some (weights item).isSome := by
  obtain ⟨ctx, t', hlookup, hplug, hhas, hway, rfl | ⟨x, l, r, rfl, hkey⟩⟩ := h.lookup item
  · have hnone : weights item = none := by
      by_contra hsome
      obtain ⟨weight, hweight⟩ := Option.ne_none_iff_exists'.mp hsome
      have hmem := (hlists item weight).mpr hweight
      rw [← hplug, PDFContext.entries_plug, PDFTree.entries, List.append_nil] at hmem
      rcases List.mem_append.mp hmem with he | he
      · exact absurd rfl (hway.fits.before _ he).ne
      · exact absurd rfl (hway.fits.after _ he).ne'
    rw [hnone, DiscretePDF.getWeight, DiscretePDF.inTree, hlookup]
    simp only [Option.bind_eq_bind, Option.bind_some, load_place hhas]
    exact ⟨rfl, rfl⟩
  · have hsome : weights item = some x.weight := by
      rw [← hlists, ← hkey, ← hplug, PDFContext.entries_plug, PDFTree.entries]
      simp
    rw [hsome, DiscretePDF.getWeight, DiscretePDF.inTree, hlookup]
    simp only [Option.bind_eq_bind, Option.bind_some, load_place hhas]
    refine ⟨?_, rfl⟩
    show (d.node x.place).map PDFNode.weight = _
    rw [hhas.node_eq, Option.map_some]

variable [LinearOrder W]

/-- The heap has a tree with its parent pointers and sums, in the order of the items, and the
operations that do not change it answer as the map does. -/
structure Consistent (d : DiscretePDF T W) (weights : T → Option W) (t : PDFTree T W) : Prop where
  holds : d.Has 0 [] t
  sums : t.Sums
  increasing : Increasing t.entries
  lists : Lists t.entries weights
  inTree : ∀ item, d.inTree item = some (weights item).isSome
  getWeight : ∀ item, d.getWeight item = weights item
  choose : t.entries ≠ [] → ∀ p, 0 ≤ p → p < 1 →
    ∃ item, d.choose p = some item ∧ Picks t.entries (p * totalWeight t.entries) item

/-- What is inserted is not there, what is removed or updated is, and weights are positive. -/
def Op.Legal (weights : T → Option W) : Op T W → Prop
  | .insert item weight => weights item = none ∧ 0 < weight
  | .remove item => (weights item).isSome
  | .update item weight => (weights item).isSome ∧ 0 < weight

/-- The map as a machine. -/
def stepWeights (weights : T → Option W) (op : Op T W) : Unit × (T → Option W) :=
  ((), op.effect weights)

/-- The weights of the map are positive. -/
def Positive (weights : T → Option W) : Prop := ∀ item weight, weights item = some weight → 0 < weight

theorem Positive.effect (h : Positive weights) {op : Op T W} (hop : op.Legal weights) :
    Positive (op.effect weights) := by
  have hupdate : ∀ (item : T) (new : Option W), (∀ weight, new = some weight → 0 < weight) →
      Positive (Function.update weights item new) := by
    intro item new hnew item' weight hweight
    by_cases heq : item' = item
    · rw [heq, Function.update_self] at hweight
      exact hnew weight hweight
    · rw [Function.update_of_ne heq] at hweight
      exact h item' weight hweight
  cases op with
  | insert item weight => exact hupdate item _ (fun _ hw => Option.some.inj hw ▸ hop.2)
  | remove item => exact hupdate item _ (fun _ hw => absurd hw (by simp))
  | update item weight => exact hupdate item _ (fun _ hw => Option.some.inj hw ▸ hop.2)

/-- What the map allows, the weighted choice allows. -/
theorem Good.allowed (h : d.Good t) (hlists : Lists t.entries weights) {op : Op T W}
    (hop : op.Legal weights) : d.Allowed op := by
  cases op with
  | insert item weight =>
    show d.inTree item = some false
    rw [(h.getWeight hlists item).2, hop.1]
    rfl
  | remove item =>
    show d.inTree item = some true
    rw [(h.getWeight hlists item).2, show (weights item).isSome = true from hop]
  | update item weight =>
    show d.inTree item = some true
    rw [(h.getWeight hlists item).2, hop.1]

theorem Good.consistent [IsStrictOrderedRing W] (h : d.Good t) (hlists : Lists t.entries weights)
    (hpos : Positive weights) : d.Consistent weights t where
  holds := h.holds
  sums := h.sums
  increasing := h.increasing
  lists := hlists
  inTree item := (h.getWeight hlists item).2
  getWeight item := (h.getWeight hlists item).1
  choose hne _ hnonneg hlt :=
    h.choose (fun e he => hpos e.1 e.2 ((hlists e.1 e.2).mp he)) hne hnonneg hlt

/-- Any operations that the map allows succeed, and leave a weighted choice that answers as the
map does then. -/
theorem run_consistent [IsStrictOrderedRing W] (ops : List (Op T W))
    (hops : AllSteps stepWeights (fun weights op => op.Legal weights) (fun _ => none) ops) :
    ∃ answers d t, runOption apply empty ops = some (answers, d)
      ∧ d.Consistent (run stepWeights (fun _ => none) ops).2 t := by
  let Rel := fun (d : DiscretePDF T W) (weights : T → Option W) =>
    ∃ t, d.Good t ∧ Lists t.entries weights ∧ Positive weights
  have hstep : ∀ (d : DiscretePDF T W) (weights : T → Option W) (op : Op T W), Rel d weights →
      op.Legal weights → ∃ a d', d.apply op = some (a, d') ∧ a = (stepWeights weights op).1
        ∧ Rel d' (stepWeights weights op).2 := by
    rintro d weights op ⟨t, hgood, hlists, hpos⟩ hop
    obtain ⟨d', t', hd', hgood', hlists', -⟩ := hgood.apply (hgood.allowed hlists hop)
    exact ⟨(), d', hd', rfl, t', hgood', hlists' weights hlists, hpos.effect hop⟩
  have hempty : Rel empty (fun _ => none) :=
    ⟨.nil, empty_good, fun _ _ => iff_of_false List.not_mem_nil (by simp),
      fun _ _ h => absurd h (by simp)⟩
  obtain ⟨answers, d, hrun, -, t, hgood, hlists, hpos⟩ :=
    runOption_simulates Rel hstep hempty hops
  exact ⟨answers, d, t, hrun, hgood.consistent hlists hpos⟩

end Map

/-- Two items, one of which gets another weight. -/
theorem run_consistent_two :
    ∃ answers d t, runOption apply (empty : DiscretePDF ℕ ℚ)
        [.insert 1 2, .insert 2 3, .update 1 1] = some (answers, d)
      ∧ d.Consistent (run stepWeights (fun _ => none) [.insert 1 2, .insert 2 3, .update 1 1]).2 t :=
  run_consistent [.insert 1 2, .insert 2 3, .update 1 1]
    ⟨⟨rfl, by decide +kernel⟩, ⟨rfl, by decide +kernel⟩, ⟨rfl, by decide +kernel⟩, trivial⟩

end DiscretePDF

end Xklee
