/-
Least costs, and tables of them that are lowered until nothing changes.

A rule says what its head costs once its premises have a cost. Tables write 0 for a node that has no
cost, so 0 is the farthest of all distances. A table holds the least costs when each of its entries
is a cost and no rule gives less than the table has. Sweeps that only lower the entries of finitely
many nodes come to an end, in whatever order they visit the nodes.
-/
import Mathlib.Algebra.Order.BigOperators.Group.List
import Mathlib.Data.ENat.Basic
import Mathlib.Data.Fintype.Pi
import Mathlib.Data.Set.Finite.Basic
import Mathlib.Logic.Relation
import Mathlib.Order.Bounds.Basic
import Mathlib.Order.WellFoundedSet

set_option autoImplicit false

namespace Xklee

universe u v

/-! ## Rules and costs -/

/-- The head costs `cost` more than the premises together. -/
structure CostRule (ι : Type u) where
  head : ι
  cost : ℕ
  premises : List ι

variable {ι : Type u} {rules : Set (CostRule ι)}

/-- What the rules let a node cost. -/
inductive Costs (rules : Set (CostRule ι)) : ι → ℕ → Prop
  | rule {r : CostRule ι} (hr : r ∈ rules) (v : ι → ℕ) (hv : ∀ p ∈ r.premises, Costs rules p (v p)) :
      Costs rules r.head (r.cost + (r.premises.map v).sum)

variable {n m : ι} {c d d' b : ℕ}

theorem Costs.start (h : ⟨n, c, []⟩ ∈ rules) : Costs rules n c :=
  .rule h (fun _ => 0) fun _ hp => nomatch hp

theorem Costs.step (h : ⟨n, c, [m]⟩ ∈ rules) (hm : Costs rules m d) :
    Costs rules n (c + d) :=
  .rule h (fun _ => d) (List.forall_mem_singleton.mpr hm)

theorem Costs.join {m' : ι} (h : ⟨n, c, [m, m']⟩ ∈ rules) (hne : m ≠ m') (hm : Costs rules m d)
    (hm' : Costs rules m' d') : Costs rules n (c + (d + d')) := by
  classical
  have hcost := Costs.rule h (fun p => if p = m then d else d')
    (List.forall_mem_cons.mpr ⟨by simpa using hm, by simpa [hne.symm] using hm'⟩)
  simpa [hne.symm] using hcost

/-- The least cost of a node; 0 iff the node has no cost. -/
structure IsDistance (rules : Set (CostRule ι)) (n : ι) (d : ℕ) : Prop where
  cost : d ≠ 0 → Costs rules n d
  least : ∀ c, Costs rules n c → d ≠ 0 ∧ d ≤ c

theorem IsDistance.unique (h : IsDistance rules n d) (h' : IsDistance rules n d') : d = d' := by
  by_cases hd : d = 0
  · by_contra hne
    exact (h.least d' (h'.cost fun hzero => hne (hd.trans hzero.symm))).1 hd
  · obtain ⟨hd', hle⟩ := h'.least d (h.cost hd)
    exact le_antisymm (h.least d' (h'.cost hd')).2 hle

/-- A function that no rule takes below itself bounds every cost from below. -/
theorem Costs.ge {L : ι → ℕ} (hL : ∀ r ∈ rules, L r.head ≤ r.cost + (r.premises.map L).sum)
    (h : Costs rules n c) : L n ≤ c := by
  induction h with
  | rule hr v _ ih => exact (hL _ hr).trans (Nat.add_le_add_left (List.sum_le_sum ih) _)

/-! ## Zero as the farthest distance -/

/-- The first distance is not farther than the second one. -/
def Within (b c : ℕ) : Prop := c ≠ 0 → b ≠ 0 ∧ b ≤ c

theorem Within.refl (b : ℕ) : Within b b := fun h => ⟨h, le_refl b⟩

theorem Within.trans {a : ℕ} (hab : Within a b) (hbc : Within b c) : Within a c := fun hc =>
  ⟨(hab (hbc hc).1).1, (hab (hbc hc).1).2.trans (hbc hc).2⟩

/-- `if (dist) { val = a + dist; if (best==0 || val<best) best = val; }`. -/
def relax (a best dist : ℕ) : ℕ :=
  if dist ≠ 0 ∧ (best = 0 ∨ a + dist < best) then a + dist else best

theorem relax_within (a best dist : ℕ) : Within (relax a best dist) best := by
  unfold relax Within
  split <;> omega

theorem relax_le (a best : ℕ) {dist : ℕ} (h : dist ≠ 0) :
    relax a best dist ≠ 0 ∧ relax a best dist ≤ a + dist := by
  unfold relax
  split <;> omega

theorem relax_eq (a best dist : ℕ) :
    relax a best dist = best ∨ relax a best dist = a + dist ∧ dist ≠ 0 := by
  unfold relax
  split
  next h => exact Or.inr ⟨rfl, h.1⟩
  next => exact Or.inl rfl

section Fold

variable {α : Type v} (a : ℕ) (g : α → ℕ)

theorem foldl_relax_within (xs : List α) (best : ℕ) :
    Within (xs.foldl (fun b x => relax a b (g x)) best) best := by
  induction xs generalizing best with
  | nil => exact Within.refl best
  | cons x xs ih => exact (ih _).trans (relax_within a best (g x))

theorem foldl_relax_le {xs : List α} {x : α} (hx : x ∈ xs) (h : g x ≠ 0) (best : ℕ) :
    xs.foldl (fun b x => relax a b (g x)) best ≠ 0 ∧
      xs.foldl (fun b x => relax a b (g x)) best ≤ a + g x := by
  induction xs generalizing best with
  | nil => cases hx
  | cons y ys ih =>
      rcases List.mem_cons.mp hx with rfl | hx
      · obtain ⟨hne, hle⟩ := relax_le a best h
        obtain ⟨hne', hle'⟩ := foldl_relax_within a g ys _ hne
        exact ⟨hne', hle'.trans hle⟩
      · exact ih hx _

/-- What a fold ends with is what it started with or comes from one of the values it met. -/
theorem foldl_relax_eq (xs : List α) (best : ℕ) :
    xs.foldl (fun b x => relax a b (g x)) best = best ∨
      ∃ x ∈ xs, xs.foldl (fun b x => relax a b (g x)) best = a + g x ∧ g x ≠ 0 := by
  induction xs generalizing best with
  | nil => exact Or.inl rfl
  | cons y ys ih =>
      rcases ih (relax a best (g y)) with h | ⟨x, hx, h⟩
      · rcases relax_eq a best (g y) with hy | ⟨hy, hne⟩
        · exact Or.inl (h.trans hy)
        · exact Or.inr ⟨y, List.mem_cons_self, h.trans hy, hne⟩
      · exact Or.inr ⟨x, List.mem_cons_of_mem y hx, h⟩

end Fold

/-! ## Tables -/

/-- A table of costs that no rule takes below itself holds the distances. -/
theorem isDistance_of_closed {D : ι → ℕ} (hcost : ∀ n, D n ≠ 0 → Costs rules n (D n))
    (hclosed : ∀ r ∈ rules, (∀ p ∈ r.premises, D p ≠ 0) →
      D r.head ≠ 0 ∧ D r.head ≤ r.cost + (r.premises.map D).sum) (n : ι) :
    IsDistance rules n (D n) := by
  refine ⟨hcost n, fun c hc => ?_⟩
  induction hc with
  | rule hr v _ ih =>
      obtain ⟨hne, hle⟩ := hclosed _ hr fun p hp => (ih p hp).1
      exact ⟨hne, hle.trans (Nat.add_le_add_left (List.sum_le_sum fun p hp => (ih p hp).2) _)⟩

/-- A table got lower at one of the nodes and nowhere higher. -/
def Lowers (nodes : Set ι) (D' D : ι → ℕ) : Prop :=
  (∀ n, Within (D' n) (D n)) ∧ ∃ n ∈ nodes, D' n ≠ D n

/-- A distance in the order in which 0 is the farthest one. -/
def far (d : ℕ) : ℕ∞ := if d = 0 then ⊤ else d

theorem far_le_far (h : Within b c) : far b ≤ far c := by
  unfold far
  by_cases hc : c = 0
  · rw [if_pos hc]
    exact le_top
  · rw [if_neg hc, if_neg (h hc).1]
    exact Nat.cast_le.mpr (h hc).2

theorem far_injective (h : far b = far c) : b = c := by
  unfold far at h
  split at h <;> split at h
  · omega
  · exact absurd h.symm (ENat.natCast_ne_top c)
  · exact absurd h (ENat.natCast_ne_top b)
  · exact ENat.natCast_inj.mp h

/-- The entries of finitely many nodes are not lowered for ever. -/
theorem wellFounded_lowers {nodes : Set ι} (hfin : nodes.Finite) : WellFounded (Lowers nodes) := by
  have : Finite nodes := hfin
  refine Subrelation.wf (fun {D' D} h => ?_)
    (InvImage.wf (fun (D : ι → ℕ) (n : nodes) => far (D n)) wellFounded_lt)
  obtain ⟨hle, n, hn, hne⟩ := h
  refine lt_of_le_of_ne (fun m => far_le_far (hle m)) fun heq => hne ?_
  exact far_injective (congrFun heq ⟨n, hn⟩)

/-! ## Sweeps -/

section Sweep

variable {S : Type v} (step : S → ι → Option S)

/-- A visit to a node; the flag says whether a visit has changed the state. -/
def visit (r : S × Bool) (n : ι) : S × Bool :=
  match step r.1 n with
  | none => r
  | some s' => (s', true)

/-- One visit to each node. -/
def sweep (nodes : List ι) (s : S) : S × Bool := nodes.foldl (visit step) (s, false)

/-- `do { ... } while (changed)`. -/
def untilStable (nodes : List ι) : ℕ → S → Option S
  | 0, _ => none
  | fuel + 1, s =>
      if (sweep step nodes s).2 then untilStable nodes fuel (sweep step nodes s).1
      else some (sweep step nodes s).1

/-- The states of the loop that starts in `s₀`, with the nodes that the sweep has not visited
yet. -/
inductive Swept (nodes : List ι) (s₀ : S) : S → List ι → Prop
  | start : Swept nodes s₀ s₀ nodes
  | visit {s : S} {n : ι} {rest : List ι} {b : Bool} : Swept nodes s₀ s (n :: rest) →
      Swept nodes s₀ (visit step (s, b) n).1 rest
  | again {s : S} : Swept nodes s₀ s [] → Swept nodes s₀ s nodes

variable {step} {nodes : List ι} {s₀ s : S}

/-- What the visits keep holds in the whole loop. -/
theorem Swept.keeps (Inv : S → Prop) (h₀ : Inv s₀)
    (hstep : ∀ s n rest s', Swept step nodes s₀ s (n :: rest) → n ∈ nodes → Inv s →
      step s n = some s' → Inv s') {rest : List ι} (h : Swept step nodes s₀ s rest) :
    Inv s ∧ rest ⊆ nodes := by
  induction h with
  | start => exact ⟨h₀, List.Subset.refl nodes⟩
  | @visit s n rest b h ih =>
      refine ⟨?_, List.Subset.trans (List.subset_cons_self n rest) ih.2⟩
      unfold Xklee.visit
      split
      next => exact ih.1
      next s' hs' => exact hstep s n rest s' h (ih.2 List.mem_cons_self) ih.1 hs'
  | again _ ih => exact ⟨ih.1, List.Subset.refl nodes⟩

variable {ys : List ι} {b : Bool}

theorem Swept.foldl_visit (h : Swept step nodes s₀ s ys) :
    Swept step nodes s₀ (ys.foldl (Xklee.visit step) (s, b)).1 [] := by
  induction ys generalizing s b with
  | nil => exact h
  | cons n ys ih => exact ih (h.visit (b := b))

/-- Visits that leave the flag down have found nothing to do. -/
theorem eq_of_foldl_visit {r : S × Bool} (h : (ys.foldl (visit step) r).2 = false) :
    ys.foldl (visit step) r = r ∧ r.2 = false ∧ ∀ n ∈ ys, step r.1 n = none := by
  induction ys generalizing r with
  | nil => exact ⟨rfl, h, fun n hn => nomatch hn⟩
  | cons n ys ih =>
      obtain ⟨heq, hflag, hnone⟩ := ih h
      have hn : step r.1 n = none := by
        cases hstep : step r.1 n with
        | none => rfl
        | some s' => simp [visit, hstep] at hflag
      have hvisit : visit step r n = r := by simp only [visit, hn]
      rw [hvisit] at heq hflag hnone
      rw [List.foldl_cons, hvisit]
      exact ⟨heq, hflag, List.forall_mem_cons.mpr ⟨hn, hnone⟩⟩

/-- A visit of the loop that changes the state. -/
def Visits (step : S → ι → Option S) (nodes : List ι) (s₀ : S) (s' s : S) : Prop :=
  ∃ n rest, Swept step nodes s₀ s (n :: rest) ∧ step s n = some s'

theorem foldl_visit_cases (h : Swept step nodes s₀ s ys) :
    ys.foldl (visit step) (s, b) = (s, b) ∨
      Relation.TransGen (Visits step nodes s₀) (ys.foldl (visit step) (s, b)).1 s := by
  induction ys generalizing s b with
  | nil => exact Or.inl rfl
  | cons n ys ih =>
      rw [List.foldl_cons]
      have hrest := h.visit (b := b)
      cases hstep : step s n with
      | none =>
          have hvisit : visit step (s, b) n = (s, b) := by simp only [visit, hstep]
          rw [hvisit] at hrest ⊢
          exact ih hrest
      | some s' =>
          have hvisit : visit step (s, b) n = (s', true) := by simp only [visit, hstep]
          rw [hvisit] at hrest ⊢
          have hone : Visits step nodes s₀ s' s := ⟨n, ys, h, hstep⟩
          rcases ih (b := true) hrest with heq | htrans
          · rw [heq]
            exact Or.inr (.single hone)
          · exact Or.inr (htrans.tail hone)

/-- A loop that has ended left a state in which no visit finds anything to do. -/
theorem untilStable_stable {fuel : ℕ} {s' : S} (hs : Swept step nodes s₀ s nodes)
    (h : untilStable step nodes fuel s = some s') :
    Swept step nodes s₀ s' [] ∧ ∀ n ∈ nodes, step s' n = none := by
  induction fuel generalizing s with
  | zero => cases h
  | succ fuel ih =>
      have hswept := hs.foldl_visit (b := false)
      unfold untilStable at h
      split at h
      next => exact ih hswept.again h
      next hflag =>
        obtain rfl := Option.some.inj h
        obtain ⟨heq, -, hnone⟩ := eq_of_foldl_visit (Bool.not_eq_true _ ▸ hflag)
        refine ⟨hswept, ?_⟩
        rw [sweep, heq]
        exact hnone

/-- The loop ends when the state cannot change for ever. -/
theorem untilStable_ends (hwf : WellFounded (Visits step nodes s₀))
    (hs : Swept step nodes s₀ s nodes) : ∃ fuel s', untilStable step nodes fuel s = some s' := by
  induction s using hwf.transGen.induction with
  | _ s ih =>
      by_cases hflag : (sweep step nodes s).2 = true
      · rcases foldl_visit_cases (b := false) hs with heq | htrans
        · rw [sweep, heq] at hflag
          cases hflag
        · obtain ⟨fuel, s', h⟩ := ih _ htrans hs.foldl_visit.again
          exact ⟨fuel + 1, s', (if_pos hflag).trans h⟩
      · exact ⟨1, _, if_neg hflag⟩

/-- A loop whose visits keep an invariant and lower a table ends in a state in which no visit finds
anything to do. -/
theorem exists_untilStable {κ : Type*} {entries : Set κ} (hfin : entries.Finite) (value : S → κ → ℕ)
    (Inv : S → Prop) (h₀ : Inv s₀)
    (hstep : ∀ s n rest s', Swept step nodes s₀ s (n :: rest) → n ∈ nodes → Inv s →
      step s n = some s' → Inv s' ∧ Lowers entries (value s') (value s)) :
    ∃ fuel s', untilStable step nodes fuel s₀ = some s' ∧ Inv s' ∧ ∀ n ∈ nodes, step s' n = none := by
  have hkeeps : ∀ s rest, Swept step nodes s₀ s rest → Inv s ∧ rest ⊆ nodes := fun s rest hs =>
    hs.keeps Inv h₀ fun s n rest s' hs hn hinv h => (hstep s n rest s' hs hn hinv h).1
  have hwf : WellFounded (Visits step nodes s₀) := by
    refine Subrelation.wf (fun {s' s} hvisit => ?_) (InvImage.wf value (wellFounded_lowers hfin))
    obtain ⟨n, rest, hs, h⟩ := hvisit
    obtain ⟨hinv, hrest⟩ := hkeeps s (n :: rest) hs
    exact (hstep s n rest s' hs (hrest List.mem_cons_self) hinv h).2
  obtain ⟨fuel, s', h⟩ := untilStable_ends hwf .start
  obtain ⟨hend, hstable⟩ := untilStable_stable .start h
  exact ⟨fuel, s', h, (hkeeps s' [] hend).1, hstable⟩

end Sweep

end Xklee
