/-
What `rotate` does to the tree.

The node comes up over its parent, which gets the child between the two. The sum of the
parent is then right, if the sums below are; the sum of the node is not, because it is taken
before that of the parent.
-/
import Xklee.ADT.PDFTree

set_option autoImplicit false

namespace Xklee

namespace DiscretePDF

variable {T W : Type}

/-- The operation succeeds, and leaves this root and these cells. -/
def Leaves (result : Option (DiscretePDF T W)) (root : Option ℕ)
    (cells : Multiset (ℕ × PDFNode T W)) : Prop :=
  ∃ d, result = some d ∧ d.m_root = root ∧ d.heap.Holds cells

section Cells

variable {d : DiscretePDF T W} {S : Multiset (ℕ × PDFNode T W)} {n p : ℕ} {node : PDFNode T W}

theorem node_eq (h : d.heap.Holds ((n, node) ::ₘ S)) : d.node n = some node := h.head

theorem modify_leaves (h : d.heap.Holds ((n, node) ::ₘ S))
    (f : PDFNode T W → PDFNode T W) :
    Leaves (d.modify n f) d.m_root ((n, f node) ::ₘ S) := by
  refine ⟨{ d with heap := d.heap.write n (f node) }, ?_, rfl, h.write (f node)⟩
  rw [modify, node_eq h]
  rfl

/-- The same about cells. -/
theorem modify_cell {c : ℕ × PDFNode T W} (h : d.heap.Holds (c ::ₘ S)) (c' : ℕ × PDFNode T W)
    (f : PDFNode T W → PDFNode T W) (hf : f c.2 = c'.2) (hplace : c'.1 = c.1) :
    Leaves (d.modify c.1 f) d.m_root (c' ::ₘ S) := by
  have hcell : c' = (c.1, f c.2) := Prod.ext hplace hf.symm
  rw [hcell]
  exact modify_leaves h f

variable {t : PDFTree T W} {parent : Option ℕ}

/-- No part of the tree is at the place of another cell. -/
theorem root_ne (h : d.heap.Holds ((n, node) ::ₘ (t.cells parent + S))) : t.root ≠ some n := by
  cases t with
  | nil => exact fun heq => absurd heq (by simp [PDFTree.root])
  | node x l r =>
    intro heq
    have hmem : x.cell parent true l.root r.root ∈ (PDFTree.node x l r).cells parent + S :=
      Multiset.mem_add.mpr (.inl (Multiset.mem_cons_self _ _))
    exact h.ne hmem (Option.some.inj heq)

/-- An assignment to the parent of the root of a tree. -/
theorem setParent_leaves (h : d.heap.Holds (t.cells parent + S)) (p : Option ℕ) :
    Leaves (d.modifyIf t.root fun child => { child with parent := p }) d.m_root
      (t.cells p + S) := by
  cases t with
  | nil => exact ⟨d, rfl, rfl, h⟩
  | node x l r =>
    rw [PDFTree.cells, Multiset.cons_add] at h ⊢
    exact modify_leaves h _

/-- A change of the colour of the root of a tree. -/
theorem setMark_leaves (h : d.heap.Holds (t.cells parent + S)) (mark : Bool) :
    Leaves (d.modifyIf t.root fun child => { child with m_mark := mark }) d.m_root
      ((t.setMark mark).cells parent + S) := by
  cases t with
  | nil => exact ⟨d, rfl, rfl, h⟩
  | node x l r =>
    rw [PDFTree.cells, Multiset.cons_add] at h
    rw [PDFTree.setMark, PDFTree.cells, Multiset.cons_add]
    exact modify_leaves h _

theorem sumOf_eq [Zero W] (h : d.heap.Holds (t.cells parent + S)) :
    d.sumOf t.root = some t.sumOf := by
  cases t with
  | nil => rfl
  | node x l r =>
    rw [PDFTree.cells, Multiset.cons_add] at h
    have hnode : d.node x.place = _ := node_eq h
    rw [PDFTree.root, sumOf, hnode]
    rfl

end Cells

section Rotate

variable {d : DiscretePDF T W} {R S : Multiset (ℕ × PDFNode T W)}

variable {isLeft : Bool} {n p : PDFLabel T W} {A B C : PDFTree T W} {ctx : PDFContext T W}

/-- The node of a frame sums up what is below it. -/
theorem setSum_leaves [Field W] {x : PDFLabel T W} {near far : PDFTree T W} {parent : Option ℕ}
    (h : d.heap.Holds (((⟨isLeft, x, far⟩ : PDFFrame T W).plug near).cells parent + S)) :
    Leaves (d.setSum x.place) d.m_root
      (((⟨isLeft, x.withSum near far, far⟩ : PDFFrame T W).plug near).cells parent + S) := by
  rw [PDFFrame.cells_plug, Multiset.cons_add] at h ⊢
  have hnear : d.sumOf near.root = some near.sumOf := by
    have htail := h.tail
    rw [add_assoc] at htail
    exact sumOf_eq htail
  have hfar : d.sumOf far.root = some far.sumOf := by
    have htail := h.tail
    rw [add_comm (near.cells _), add_assoc] at htail
    exact sumOf_eq htail
  have hmodify := modify_leaves h fun node =>
    { node with sumWeights := node.weight + near.sumOf + far.sumOf }
  have hnode : d.node x.place = some (x.cell parent isLeft near.root far.root).2 := node_eq h
  have hset : d.setSum x.place
      = d.modify x.place fun node =>
          { node with sumWeights := node.weight + near.sumOf + far.sumOf } := by
    rw [setSum, hnode]
    cases isLeft with
    | true =>
      change ((d.sumOf near.root).bind fun left => (d.sumOf far.root).bind fun right => _) = _
      rw [hnear, hfar]
      rfl
    | false =>
      change ((d.sumOf far.root).bind fun left => (d.sumOf near.root).bind fun right => _) = _
      rw [hnear, hfar]
      change d.modify x.place _ = _
      refine congrArg _ (funext fun node => ?_)
      rw [add_right_comm]
  rw [hset]
  exact hmodify

/-- The children change hands. -/
theorem exchange_leaves {pp : Option ℕ}
    (h : d.heap.Holds (n.cell pp isLeft A.root B.root ::ₘ p.cell (some n.place) isLeft
      (some n.place) C.root ::ₘ (A.cells (some n.place) + B.cells (some n.place)
        + C.cells (some p.place) + S))) :
    Leaves (d.exchange n.place p.place) d.m_root
      (n.cell pp isLeft A.root (some p.place) ::ₘ p.cell (some n.place) isLeft B.root C.root
        ::ₘ (A.cells (some n.place) + B.cells (some p.place) + C.cells (some p.place) + S)) := by
  have hn : d.node n.place = some (n.cell pp isLeft A.root B.root).2 := node_eq h
  have hswap := h
  rw [Multiset.cons_swap] at hswap
  have hp : d.node p.place = some (p.cell (some n.place) isLeft (some n.place) C.root).2 :=
    node_eq hswap
  -- The node is a child of its parent on one side only.
  have hside : C.root ≠ some n.place := by
    have hC : d.heap.Holds (n.cell pp isLeft A.root B.root ::ₘ (C.cells (some p.place)
        + (p.cell (some n.place) isLeft (some n.place) C.root ::ₘ (A.cells (some n.place)
          + B.cells (some n.place) + S)))) := by
      refine h.congr ?_
      simp only [← Multiset.singleton_add]
      abel
    exact root_ne hC
  have hlink : ∀ f g : PDFNode T W → PDFNode T W,
      f (p.cell (some n.place) isLeft (some n.place) C.root).2
        = (p.cell (some n.place) isLeft B.root C.root).2 →
      g (n.cell pp isLeft A.root B.root).2 = (n.cell pp isLeft A.root (some p.place)).2 →
      Leaves ((d.modify p.place f).bind fun d => (d.modify n.place g).bind fun d =>
          d.modifyIf B.root fun child => { child with parent := some p.place }) d.m_root
        (n.cell pp isLeft A.root (some p.place) ::ₘ p.cell (some n.place) isLeft B.root C.root
          ::ₘ (A.cells (some n.place) + B.cells (some p.place) + C.cells (some p.place) + S)) := by
    intro f g hf hg
    obtain ⟨d₁, hd₁, hroot₁, h₁⟩ := modify_cell hswap _ f hf rfl
    have hswap₁ : d₁.heap.Holds (n.cell pp isLeft A.root B.root
        ::ₘ p.cell (some n.place) isLeft B.root C.root ::ₘ (A.cells (some n.place)
          + B.cells (some n.place) + C.cells (some p.place) + S)) := by
      rw [Multiset.cons_swap]
      exact h₁
    obtain ⟨d₂, hd₂, hroot₂, h₂⟩ := modify_cell hswap₁ _ g hg rfl
    have hB : d₂.heap.Holds (B.cells (some n.place) + (n.cell pp isLeft A.root (some p.place)
        ::ₘ p.cell (some n.place) isLeft B.root C.root ::ₘ (A.cells (some n.place)
          + C.cells (some p.place) + S))) := by
      refine h₂.congr ?_
      simp only [← Multiset.singleton_add]
      abel
    obtain ⟨d₃, hd₃, hroot₃, h₃⟩ := setParent_leaves hB (some p.place)
    refine ⟨d₃, ?_, hroot₃.trans (hroot₂.trans hroot₁), h₃.congr ?_⟩
    · change d.modify p.place f = some d₁ at hd₁
      change d₁.modify n.place g = some d₂ at hd₂
      rw [hd₁, Option.bind_some, hd₂, Option.bind_some, hd₃]
    · simp only [← Multiset.singleton_add]
      abel
  rw [exchange, hn, hp]
  cases isLeft with
  | true =>
    change Leaves (if some n.place = some n.place then _ else _) _ _
    rw [if_pos rfl]
    exact hlink _ _ rfl rfl
  | false =>
    change Leaves (if C.root = some n.place then _ else _) _ _
    rw [if_neg hside]
    exact hlink _ _ rfl rfl

/-- The node is put where its parent was. -/
theorem replaceChild_leaves {c : ℕ × PDFNode T W} (n : ℕ) (hroot : d.m_root = ctx.rootOf (some c.1))
    (h : d.heap.Holds (c ::ₘ (ctx.cells (some c.1) + S))) :
    Leaves (d.replaceChild ctx.parent c.1 n) (ctx.rootOf (some n))
      (c ::ₘ (ctx.cells (some n) + S)) := by
  cases ctx with
  | nil => exact ⟨{ d with m_root := some n }, rfl, rfl, h⟩
  | cons f ctx =>
    rw [PDFContext.cells, Multiset.cons_add] at h
    have hswap := h
    rw [Multiset.cons_swap] at hswap
    have hf : d.node f.x.place
        = some (f.x.cell (PDFContext.parent ctx) f.isLeft (some c.1) f.far.root).2 := node_eq hswap
    have hside : f.far.root ≠ some c.1 := by
      have hfar : d.heap.Holds (c ::ₘ (f.far.cells (some f.x.place)
          + (f.x.cell (PDFContext.parent ctx) f.isLeft (some c.1) f.far.root
            ::ₘ (PDFContext.cells ctx (some f.x.place) + S)))) := by
        refine h.congr ?_
        simp only [← Multiset.singleton_add]
        abel
      exact root_ne hfar
    have hlink : ∀ g : PDFNode T W → PDFNode T W,
        g (f.x.cell (PDFContext.parent ctx) f.isLeft (some c.1) f.far.root).2
          = (f.x.cell (PDFContext.parent ctx) f.isLeft (some n) f.far.root).2 →
        Leaves (d.modify f.x.place g) (PDFContext.rootOf (f :: ctx) (some n))
          (c ::ₘ (PDFContext.cells (f :: ctx) (some n) + S)) := by
      intro g hg
      obtain ⟨d₁, hd₁, hroot₁, h₁⟩ := modify_cell hswap _ g hg rfl
      refine ⟨d₁, hd₁, hroot₁.trans hroot, ?_⟩
      rw [PDFContext.cells, Multiset.cons_add, Multiset.cons_swap]
      exact h₁
    rw [PDFContext.parent, replaceChild, hf]
    cases hleft : f.isLeft with
    | true =>
      rw [hleft] at hlink
      change Leaves (if some c.1 = some c.1 then _ else _) _ _
      rw [if_pos rfl]
      exact hlink _ rfl
    | false =>
      rw [hleft] at hlink
      change Leaves (if f.far.root = some c.1 then _ else _) _ _
      rw [if_neg hside]
      exact hlink _ rfl

/-- `rotate` brings the node up over its parent. -/
theorem rotate_has [Field W]
    (h : d.Has R (⟨isLeft, p, C⟩ :: ctx) ((⟨isLeft, n, B⟩ : PDFFrame T W).plug A)) :
    ∃ d' sum, d.rotate n.place = some d' ∧ d'.Has R ctx
      ((⟨isLeft, { n with sum := sum },
        (⟨isLeft, p.withSum B C, C⟩ : PDFFrame T W).plug B⟩ : PDFFrame T W).plug A) := by
  have h₀ : d.heap.Holds (n.cell (some p.place) isLeft A.root B.root
      ::ₘ p.cell ctx.parent isLeft (some n.place) C.root ::ₘ (A.cells (some n.place)
        + B.cells (some n.place) + C.cells (some p.place) + (ctx.cells (some p.place) + R))) := by
    refine h.holds.congr ?_
    rw [PDFFrame.cells_plug, PDFFrame.root_plug, PDFContext.cells, PDFContext.parent]
    simp only [← Multiset.singleton_add]
    abel
  have hn : d.node n.place = some (n.cell (some p.place) isLeft A.root B.root).2 := node_eq h₀
  have hp : d.node p.place = some (p.cell ctx.parent isLeft (some n.place) C.root).2 := by
    have hswap := h₀
    rw [Multiset.cons_swap] at hswap
    exact node_eq hswap
  have hm_root : d.m_root = ctx.rootOf (some p.place) := h.m_root
  obtain ⟨d₁, hd₁, hroot₁, h₁⟩ := modify_cell h₀ (n.cell ctx.parent isLeft A.root B.root)
    (fun node => { node with parent := ctx.parent }) rfl rfl
  have hswap₁ := h₁
  rw [Multiset.cons_swap] at hswap₁
  obtain ⟨d₂, hd₂, hroot₂, h₂⟩ :=
    modify_cell hswap₁ (p.cell (some n.place) isLeft (some n.place) C.root)
      (fun node => { node with parent := some n.place }) rfl rfl
  rw [Multiset.cons_swap] at h₂
  obtain ⟨d₃, hd₃, hroot₃, h₃⟩ := exchange_leaves h₂
  -- The node is up, and its sum is taken first.
  have htree₃ : d₃.heap.Holds (((⟨isLeft, n, (⟨isLeft, p, C⟩ : PDFFrame T W).plug B⟩ :
      PDFFrame T W).plug A).cells ctx.parent + (ctx.cells (some p.place) + R)) := by
    refine h₃.congr ?_
    rw [PDFFrame.cells_plug, PDFFrame.cells_plug, PDFFrame.root_plug]
    simp only [← Multiset.singleton_add]
    abel
  obtain ⟨d₄, hd₄, hroot₄, h₄⟩ := setSum_leaves htree₃
  generalize hn' : n.withSum A ((⟨isLeft, p, C⟩ : PDFFrame T W).plug B) = n' at h₄
  have hplace : n'.place = n.place := by
    rw [← hn']
    rfl
  have htree₄ : d₄.heap.Holds (((⟨isLeft, p, C⟩ : PDFFrame T W).plug B).cells (some n.place)
      + (n'.cell ctx.parent isLeft A.root (some p.place)
        ::ₘ (A.cells (some n.place) + (ctx.cells (some p.place) + R)))) := by
    refine h₄.congr ?_
    rw [PDFFrame.cells_plug, PDFFrame.root_plug, hplace]
    simp only [← Multiset.singleton_add]
    abel
  obtain ⟨d₅, hd₅, hroot₅, h₅⟩ := setSum_leaves htree₄
  have hcells₅ : d₅.heap.Holds ((p.withSum B C).cell (some n.place) isLeft B.root C.root
      ::ₘ (ctx.cells (some p.place) + (n'.cell ctx.parent isLeft A.root (some p.place)
        ::ₘ (A.cells (some n.place) + B.cells (some p.place) + C.cells (some p.place) + R)))) := by
    refine h₅.congr ?_
    rw [PDFFrame.cells_plug, show (p.withSum B C).place = p.place from rfl]
    simp only [← Multiset.singleton_add]
    abel
  have hm_root₅ : d₅.m_root = ctx.rootOf (some p.place) := by
    rw [hroot₅, hroot₄, hroot₃, hroot₂, hroot₁, hm_root]
  obtain ⟨d₆, hd₆, hroot₆, h₆⟩ := replaceChild_leaves n.place hm_root₅ hcells₅
  have hsum : { n with sum := n'.sum } = n' := by
    rw [← hn']
    rfl
  refine ⟨d₆, n'.sum, ?_, ?_⟩
  · change d.modify n.place _ = some d₁ at hd₁
    change d₁.modify p.place _ = some d₂ at hd₂
    rw [rotate, hn]
    change ((d.node p.place).bind _) = _
    rw [hp]
    change (d.modify n.place fun node => { node with parent := ctx.parent }).bind _ = _
    rw [hd₁]
    change (d₁.modify p.place _).bind _ = _
    rw [hd₂]
    change (d₂.exchange n.place p.place).bind _ = _
    rw [hd₃]
    change (d₃.setSum n.place).bind _ = _
    rw [hd₄]
    change (d₄.setSum p.place).bind _ = _
    rw [hd₅]
    exact hd₆
  rw [hsum]
  refine ⟨?_, h₆.congr ?_⟩
  · rw [hroot₆, PDFFrame.root_plug, hplace]
  · have hpplace : (p.withSum B C).place = p.place := rfl
    rw [PDFFrame.cells_plug, PDFFrame.root_plug, PDFFrame.cells_plug, PDFFrame.root_plug, hplace,
      hpplace]
    simp only [← Multiset.singleton_add]
    abel

end Rotate

/-! ## The cut tree -/

section Has

variable {d : DiscretePDF T W} {R : Multiset (ℕ × PDFNode T W)} {ctx : PDFContext T W}
  {isLeft : Bool} {x : PDFLabel T W} {near far t : PDFTree T W}

theorem has_cons {f : PDFFrame T W} : d.Has R (f :: ctx) t ↔ d.Has R ctx (f.plug t) := by
  have hcons := @has_iff T W d R (f :: ctx) t
  have hplug := @has_iff T W d R ctx (f.plug t)
  exact hcons.trans hplug.symm

/-- The cell of the node at the cut, and the rest of the cells. -/
theorem Has.cell (h : d.Has R ctx ((⟨isLeft, x, far⟩ : PDFFrame T W).plug near)) :
    d.heap.Holds (x.cell ctx.parent isLeft near.root far.root ::ₘ (near.cells (some x.place)
      + far.cells (some x.place) + ctx.cells (some x.place) + R)) := by
  refine h.holds.congr ?_
  rw [PDFFrame.cells_plug, PDFFrame.root_plug]
  simp only [← Multiset.singleton_add]
  abel

theorem Has.node (h : d.Has R ctx ((⟨isLeft, x, far⟩ : PDFFrame T W).plug near)) :
    d.node x.place = some (x.cell ctx.parent isLeft near.root far.root).2 := node_eq h.cell

/-- A subtree is on one side of its parent only. -/
theorem Has.far_ne (h : d.Has R ctx ((⟨isLeft, x, far⟩ : PDFFrame T W).plug near)) {n : ℕ}
    (hn : near.root = some n) : far.root ≠ some n := by
  cases near with
  | nil => exact absurd hn (by simp [PDFTree.root])
  | node y l r =>
    obtain rfl : y.place = n := Option.some.inj hn
    have hy : d.heap.Holds (y.cell (some x.place) true l.root r.root
        ::ₘ (far.cells (some x.place) + (x.cell ctx.parent isLeft (some y.place) far.root
          ::ₘ (l.cells (some y.place) + r.cells (some y.place) + ctx.cells (some x.place) + R)))) := by
      refine h.cell.congr ?_
      rw [PDFTree.cells, PDFTree.root]
      simp only [← Multiset.singleton_add]
      abel
    exact root_ne hy

/-- An assignment to what is not a pointer. -/
theorem relabel_has (h : d.Has R ctx ((⟨isLeft, x, far⟩ : PDFFrame T W).plug near))
    (x' : PDFLabel T W) (f : PDFNode T W → PDFNode T W)
    (hf : ∀ parent l r, f (x.cell parent isLeft l r).2 = (x'.cell parent isLeft l r).2)
    (hplace : x'.place = x.place) :
    ∃ d', d.modify x.place f = some d'
      ∧ d'.Has R ctx ((⟨isLeft, x', far⟩ : PDFFrame T W).plug near) := by
  obtain ⟨d', hd', hroot, hcells⟩ :=
    modify_cell h.cell (x'.cell ctx.parent isLeft near.root far.root) f (hf _ _ _) hplace
  refine ⟨d', hd', ?_, hcells.congr ?_⟩
  · have hm_root := h.m_root
    rw [PDFFrame.root_plug] at hm_root
    rw [hroot, hm_root, PDFFrame.root_plug]
    exact congrArg _ (congrArg some hplace.symm)
  · rw [PDFFrame.cells_plug, PDFFrame.root_plug, hplace]
    simp only [← Multiset.singleton_add]
    abel

/-- A change of the colour of the part that is cut off. -/
theorem setMark_has (h : d.Has R ctx t) (mark : Bool) :
    ∃ d', d.modifyIf t.root (fun child => { child with m_mark := mark }) = some d'
      ∧ d'.Has R ctx (t.setMark mark) := by
  have hholds := h.holds
  rw [add_assoc] at hholds
  obtain ⟨d', hd', hroot, hcells⟩ := setMark_leaves hholds mark
  have hsame : (t.setMark mark).root = t.root := by
    cases t with
    | nil => rfl
    | node x l r => rfl
  refine ⟨d', hd', ?_, ?_⟩
  · rw [hroot, hsame]
    exact h.m_root
  · rw [hsame, add_assoc]
    exact hcells

/-- A path in the tree is not longer than the heap. -/
theorem Has.length_le (h : d.Has R ctx t) : ctx.length + t.size ≤ d.heap.next := by
  have hcard := h.holds.card_le
  rw [Multiset.card_add, Multiset.card_add, ← t.size_eq_card] at hcard
  have hlength := ctx.length_le_card t.root
  omega

/-! ## Sums -/

section Sums

variable [Field W]

/-- A node that sums up two subtrees. -/
theorem sums_plug (isLeft : Bool) (x : PDFLabel T W) (hnear : near.Sums) (hfar : far.Sums) :
    ((⟨isLeft, x.withSum near far, far⟩ : PDFFrame T W).plug near).Sums := by
  cases isLeft with
  | true => exact ⟨rfl, hnear, hfar⟩
  | false => exact ⟨add_right_comm _ _ _, hfar, hnear⟩

theorem setSum_has (h : d.Has R ctx ((⟨isLeft, x, far⟩ : PDFFrame T W).plug near)) :
    ∃ d', d.setSum x.place = some d'
      ∧ d'.Has R ctx ((⟨isLeft, x.withSum near far, far⟩ : PDFFrame T W).plug near) := by
  have hholds := h.holds
  rw [add_assoc] at hholds
  obtain ⟨d', hd', hroot, hcells⟩ := setSum_leaves hholds
  refine ⟨d', hd', ?_, ?_⟩
  · rw [hroot, h.m_root, PDFFrame.root_plug, PDFFrame.root_plug]
    rfl
  · rw [PDFFrame.root_plug] at hcells ⊢
    rw [add_assoc]
    exact hcells

/-- The way up makes every sum right, if those beside it are, and changes nothing else. -/
theorem propogateLoop_has {fuel : ℕ}
    (h : d.Has R ctx ((⟨isLeft, x, far⟩ : PDFFrame T W).plug near)) (hnear : near.Sums)
    (hfar : far.Sums) (hctx : ctx.FarSums) (hfuel : ctx.length < fuel) :
    ∃ d' t', d.propogateLoop fuel (some x.place) = some d' ∧ d'.Has R [] t' ∧ t'.Sums
      ∧ t'.bare = (ctx.plug ((⟨isLeft, x, far⟩ : PDFFrame T W).plug near)).bare := by
  have hbare : ((⟨isLeft, x.withSum near far, far⟩ : PDFFrame T W).plug near).bare
      = ((⟨isLeft, x, far⟩ : PDFFrame T W).plug near).bare := by
    cases isLeft <;> rfl
  induction ctx generalizing d isLeft x near far fuel with
  | nil =>
    obtain ⟨fuel, rfl⟩ : ∃ k, fuel = k + 1 := ⟨fuel - 1, by omega⟩
    obtain ⟨d₁, hd₁, h₁⟩ := setSum_has h
    have hnode := h₁.node
    refine ⟨d₁, _, ?_, h₁, sums_plug isLeft x hnear hfar, hbare⟩
    rw [propogateLoop, hd₁]
    change (d₁.node x.place).bind _ = _
    have hnode' : d₁.node x.place = _ := hnode
    rw [hnode']
    exact propogateLoop.eq_1 d₁ fuel
  | cons f ctx ih =>
    obtain ⟨fuel, rfl⟩ : ∃ k, fuel = k + 1 := ⟨fuel - 1, by omega⟩
    obtain ⟨d₁, hd₁, h₁⟩ := setSum_has h
    have hnode := h₁.node
    obtain ⟨hf, hctx⟩ := List.forall_mem_cons.mp hctx
    have hbare' : ((⟨f.isLeft, f.x.withSum ((⟨isLeft, x.withSum near far, far⟩ :
        PDFFrame T W).plug near) f.far, f.far⟩ : PDFFrame T W).plug
          ((⟨isLeft, x.withSum near far, far⟩ : PDFFrame T W).plug near)).bare
        = (f.plug ((⟨isLeft, x.withSum near far, far⟩ : PDFFrame T W).plug near)).bare := by
      obtain ⟨fLeft, fx, ffar⟩ := f
      cases fLeft <;> rfl
    obtain ⟨d', t', hd', h', hsums, hrest⟩ := ih (has_cons.mp h₁)
      (sums_plug isLeft x hnear hfar) hf hctx (Nat.lt_of_succ_lt_succ hfuel) hbare'
    refine ⟨d', t', ?_, h', hsums, ?_⟩
    · rw [propogateLoop, hd₁]
      change (d₁.node x.place).bind _ = _
      have hnode' : d₁.node x.place = _ := hnode
      rw [hnode']
      exact hd'
    · rw [hrest]
      exact PDFContext.bare_plug (f :: ctx) hbare

/-- `propogateSumsUp` ends, and leaves every sum right. -/
theorem propogateSumsUp_has
    (h : d.Has R ctx ((⟨isLeft, x, far⟩ : PDFFrame T W).plug near)) (hnear : near.Sums)
    (hfar : far.Sums) (hctx : ctx.FarSums) :
    ∃ d' t', d.propogateSumsUp (some x.place) = some d' ∧ d'.Has R [] t' ∧ t'.Sums
      ∧ t'.bare = (ctx.plug ((⟨isLeft, x, far⟩ : PDFFrame T W).plug near)).bare := by
  have hlength := h.length_le
  exact propogateLoop_has h hnear hfar hctx (by rw [fuel]; omega)

end Sums

end Has

end DiscretePDF

end Xklee
