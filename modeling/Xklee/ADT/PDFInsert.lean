/-
Inserting into a weighted choice.

On the way down the loop of `insert` splits every node with two red children. That may lift
the node over its parent and its grandparent, so that the way down becomes longer by one; it
then leads to a child that is not split. The sums off the way stay right, and the sums on it
are taken again in the end.
-/
import Xklee.ADT.PDFRotate

set_option autoImplicit false

namespace Xklee

variable {T W : Type}

/-! ## The way down -/

namespace PDFTree

variable [LinearOrder T]

/-- How many nodes there are on the way down for an item. -/
def pathLength (item : T) : PDFTree T W → ℕ
  | nil => 0
  | node x l r => (if item < x.key then l.pathLength item else r.pathLength item) + 1

/-- The node is going to be split. -/
def redChildren : PDFTree T W → Bool
  | nil => false
  | node _ l r => l.mark && r.mark

/-- An upper bound of the steps of the way down. -/
def steps (item : T) (t : PDFTree T W) : ℕ :=
  2 * t.pathLength item + if t.redChildren then 1 else 0

theorem steps_le (item : T) (t : PDFTree T W) : t.steps item ≤ 2 * t.pathLength item + 1 := by
  rw [steps]
  split <;> omega

theorem pathLength_setMark (item : T) (mark : Bool) (t : PDFTree T W) :
    (t.setMark mark).pathLength item = t.pathLength item := by
  cases t with
  | nil => rfl
  | node x l r => rfl

omit [LinearOrder T] in
theorem mark_setMark_false (t : PDFTree T W) : (t.setMark false).mark = false := by
  cases t with
  | nil => rfl
  | node x l r => rfl

theorem pathLength_le_size (item : T) (t : PDFTree T W) : t.pathLength item ≤ t.size := by
  induction t with
  | nil => exact Nat.le_refl 0
  | node x l r ihl ihr =>
    rw [pathLength, size]
    split <;> omega

end PDFTree

namespace DiscretePDF

/-- The item belongs where the tree is cut. -/
structure Fits [LinearOrder T] (item : T) (ctx : PDFContext T W) : Prop where
  before : ∀ e ∈ ctx.before, e.1 < item
  after : ∀ e ∈ ctx.after, item < e.1

section Split

variable [Field W]

/-- What `split` makes of the node `x` under `ctx`, whose children `l` and `r` are black by
then: the frames above the node, the node and its children. -/
inductive SplitTo : PDFContext T W → PDFLabel T W → PDFTree T W → PDFTree T W →
    PDFContext T W → PDFLabel T W → PDFTree T W → PDFTree T W → Prop
  /-- the root keeps its colour -/
  | root (x : PDFLabel T W) (l r : PDFTree T W) : SplitTo [] x l r [] x l r
  /-- below a black node nothing is wrong -/
  | below {f : PDFFrame T W} (ctx : PDFContext T W) (x : PDFLabel T W) (l r : PDFTree T W)
      (hf : f.x.mark = false) : SplitTo (f :: ctx) x l r (f :: ctx) (x.withMark true) l r
  /-- the red parent comes up over the grandparent -/
  | same {f g : PDFFrame T W} (ctx : PDFContext T W) (x : PDFLabel T W) (l r : PDFTree T W)
      (sum : W) (hf : f.x.mark = true) (hside : f.isLeft = g.isLeft) :
      SplitTo (f :: g :: ctx) x l r
        (⟨g.isLeft, { f.x with mark := false, sum := sum },
          (⟨g.isLeft, (g.x.withMark true).withSum f.far g.far, g.far⟩ : PDFFrame T W).plug f.far⟩
            :: ctx)
        (x.withMark true) l r
  /-- the node comes up over both -/
  | crossLeft {f g : PDFFrame T W} (ctx : PDFContext T W) (x : PDFLabel T W) (l r : PDFTree T W)
      (sum : W) (hf : f.x.mark = true) (hleft : f.isLeft = true) (hright : g.isLeft = false) :
      SplitTo (f :: g :: ctx) x l r ctx { x with mark := false, sum := sum }
        (.node ((g.x.withMark true).withSum l g.far) g.far l)
        (.node (f.x.withSum r f.far) r f.far)
  | crossRight {f g : PDFFrame T W} (ctx : PDFContext T W) (x : PDFLabel T W) (l r : PDFTree T W)
      (sum : W) (hf : f.x.mark = true) (hright : f.isLeft = false) (hleft : g.isLeft = true) :
      SplitTo (f :: g :: ctx) x l r ctx { x with mark := false, sum := sum }
        (.node (f.x.withSum l f.far) f.far l)
        (.node ((g.x.withMark true).withSum r g.far) r g.far)

variable [LinearOrder T] {d : DiscretePDF T W} {R : Multiset (ℕ × PDFNode T W)}
  {ctx : PDFContext T W} {x : PDFLabel T W} {l r : PDFTree T W}

omit [Field W] [LinearOrder T] in
/-- Both children become black. -/
theorem blacken_has (h : d.Has R ctx (.node x l r)) :
    ∃ d₁ d₂, d.modifyIf l.root PDFNode.markBlack = some d₁
      ∧ d₁.modifyIf r.root PDFNode.markBlack = some d₂
      ∧ d₂.Has R ctx (.node x (l.setMark false) (r.setMark false)) := by
  have hl : d.Has R (⟨true, x, r⟩ :: ctx) l := has_cons.mpr h
  obtain ⟨d₁, hd₁, h₁⟩ := setMark_has hl false
  have hmid : d₁.Has R ctx (.node x (l.setMark false) r) := has_cons.mp h₁
  have hr : d₁.Has R (⟨false, x, l.setMark false⟩ :: ctx) r := has_cons.mpr hmid
  obtain ⟨d₂, hd₂, h₂⟩ := setMark_has hr false
  exact ⟨d₁, d₂, hd₁, hd₂, has_cons.mp h₂⟩

omit [Field W] [LinearOrder T] in
/-- The node of a cut tree. -/
theorem Has.node_eq (h : d.Has R ctx (.node x l r)) :
    d.node x.place = some ⟨x.mark, ctx.parent, l.root, r.root, x.key, x.weight, x.sum⟩ := by
  have hplug : d.Has R ctx ((⟨true, x, r⟩ : PDFFrame T W).plug l) := h
  exact hplug.node

omit [Field W] [LinearOrder T] in
/-- A change of the colour of the node of a cut tree. -/
theorem withMark_has (h : d.Has R ctx (.node x l r)) (mark : Bool) :
    ∃ d', d.modify x.place (fun node => { node with m_mark := mark }) = some d'
      ∧ d'.Has R ctx (.node (x.withMark mark) l r) := by
  have hplug : d.Has R ctx ((⟨true, x, r⟩ : PDFFrame T W).plug l) := h
  obtain ⟨d', hd', h'⟩ := relabel_has hplug (x.withMark mark)
    (fun node => { node with m_mark := mark }) (fun _ _ _ => rfl) rfl
  exact ⟨d', hd', h'⟩

variable {f g : PDFFrame T W} {t : PDFTree T W} {item : T} {fuel : ℕ}

omit [LinearOrder T] in
/-- One rotation: the node and its parent are on the same side. -/
theorem rotateSame_has (hside : f.isLeft = g.isLeft) (h : d.Has R (f :: g :: ctx) (.node x l r)) :
    ∃ d₁ d₂ sum, d.rotate f.x.place = some d₁ ∧ d₁.modify f.x.place PDFNode.markBlack = some d₂
      ∧ d₂.Has R (⟨g.isLeft, { f.x with mark := false, sum := sum },
        (⟨g.isLeft, g.x.withSum f.far g.far, g.far⟩ : PDFFrame T W).plug f.far⟩ :: ctx)
        (.node x l r) := by
  obtain ⟨fLeft, fx, ffar⟩ := f
  obtain ⟨gLeft, gx, gfar⟩ := g
  obtain rfl : fLeft = gLeft := hside
  obtain ⟨d₁, sum, hd₁, h₁⟩ := rotate_has (has_cons.mp h)
  obtain ⟨d₂, hd₂, h₂⟩ := relabel_has h₁ { fx with mark := false, sum := sum }
    PDFNode.markBlack (fun _ _ _ => rfl) rfl
  exact ⟨d₁, d₂, sum, hd₁, hd₂, has_cons.mpr h₂⟩

omit [LinearOrder T] in
/-- Two rotations, where a left child is below a right child. -/
theorem rotateCrossLeft_has (hleft : f.isLeft = true) (hright : g.isLeft = false)
    (h : d.Has R (f :: g :: ctx) (.node x l r)) :
    ∃ d₁ d₂ d₃ sum, d.rotate x.place = some d₁ ∧ d₁.rotate x.place = some d₂
      ∧ d₂.modify x.place PDFNode.markBlack = some d₃
      ∧ d₃.Has R ctx (.node { x with mark := false, sum := sum }
        (.node (g.x.withSum l g.far) g.far l) (.node (f.x.withSum r f.far) r f.far)) := by
  obtain ⟨fLeft, fx, ffar⟩ := f
  obtain ⟨gLeft, gx, gfar⟩ := g
  obtain rfl : fLeft = true := hleft
  obtain rfl : gLeft = false := hright
  have hn : d.Has R (⟨true, fx, ffar⟩ :: ⟨false, gx, gfar⟩ :: ctx)
      ((⟨true, x, r⟩ : PDFFrame T W).plug l) := h
  obtain ⟨d₁, sum₁, hd₁, h₁⟩ := rotate_has hn
  -- the node is a right child now
  have hn₁ : d₁.Has R (⟨false, gx, gfar⟩ :: ctx)
      ((⟨false, { x with sum := sum₁ }, l⟩ : PDFFrame T W).plug
        (.node (fx.withSum r ffar) r ffar)) := h₁
  obtain ⟨d₂, sum₂, hd₂, h₂⟩ := rotate_has hn₁
  obtain ⟨d₃, hd₃, h₃⟩ := relabel_has h₂ { x with mark := false, sum := sum₂ }
    PDFNode.markBlack (fun _ _ _ => rfl) rfl
  exact ⟨d₁, d₂, d₃, sum₂, hd₁, hd₂, hd₃, h₃⟩

omit [LinearOrder T] in
/-- Two rotations, where a right child is below a left child. -/
theorem rotateCrossRight_has (hright : f.isLeft = false) (hleft : g.isLeft = true)
    (h : d.Has R (f :: g :: ctx) (.node x l r)) :
    ∃ d₁ d₂ d₃ sum, d.rotate x.place = some d₁ ∧ d₁.rotate x.place = some d₂
      ∧ d₂.modify x.place PDFNode.markBlack = some d₃
      ∧ d₃.Has R ctx (.node { x with mark := false, sum := sum }
        (.node (f.x.withSum l f.far) f.far l) (.node (g.x.withSum r g.far) r g.far)) := by
  obtain ⟨fLeft, fx, ffar⟩ := f
  obtain ⟨gLeft, gx, gfar⟩ := g
  obtain rfl : fLeft = false := hright
  obtain rfl : gLeft = true := hleft
  have hn : d.Has R (⟨false, fx, ffar⟩ :: ⟨true, gx, gfar⟩ :: ctx)
      ((⟨false, x, l⟩ : PDFFrame T W).plug r) := h
  obtain ⟨d₁, sum₁, hd₁, h₁⟩ := rotate_has hn
  -- the node is a left child now
  have hn₁ : d₁.Has R (⟨true, gx, gfar⟩ :: ctx)
      ((⟨true, { x with sum := sum₁ }, r⟩ : PDFFrame T W).plug
        (.node (fx.withSum l ffar) ffar l)) := h₁
  obtain ⟨d₂, sum₂, hd₂, h₂⟩ := rotate_has hn₁
  obtain ⟨d₃, hd₃, h₃⟩ := relabel_has h₂ { x with mark := false, sum := sum₂ }
    PDFNode.markBlack (fun _ _ _ => rfl) rfl
  exact ⟨d₁, d₂, d₃, sum₂, hd₁, hd₂, hd₃, h₃⟩

omit [LinearOrder T] in
/-- The two rotations below a red parent, and what they make of the tree. -/
theorem rotateCross_has (hf : f.x.mark = true) (hside : f.isLeft ≠ g.isLeft)
    (h : d.Has R (f :: ⟨g.isLeft, g.x.withMark true, g.far⟩ :: ctx)
      (.node (x.withMark true) l r)) :
    ∃ d₁ d₂ d₃ x' l' r', d.rotate x.place = some d₁ ∧ d₁.rotate x.place = some d₂
      ∧ d₂.modify x.place PDFNode.markBlack = some d₃ ∧ d₃.Has R ctx (.node x' l' r')
      ∧ SplitTo (f :: g :: ctx) x l r ctx x' l' r' := by
  cases hleft : f.isLeft with
  | true =>
    have hright : g.isLeft = false := by
      rw [hleft] at hside
      exact Bool.eq_false_of_not_eq_true (Ne.symm hside)
    have hright' : (⟨g.isLeft, g.x.withMark true, g.far⟩ : PDFFrame T W).isLeft = false := hright
    obtain ⟨d₁, d₂, d₃, sum, hd₁, hd₂, hd₃, h₃⟩ := rotateCrossLeft_has hleft hright' h
    exact ⟨d₁, d₂, d₃, _, _, _, hd₁, hd₂, hd₃, h₃, .crossLeft ctx x l r sum hf hleft hright⟩
  | false =>
    have hright : g.isLeft = true := by
      rw [hleft] at hside
      exact Bool.eq_true_of_not_eq_false (Ne.symm hside)
    have hright' : (⟨g.isLeft, g.x.withMark true, g.far⟩ : PDFFrame T W).isLeft = true := hright
    obtain ⟨d₁, d₂, d₃, sum, hd₁, hd₂, hd₃, h₃⟩ := rotateCrossRight_has hleft hright' h
    exact ⟨d₁, d₂, d₃, _, _, _, hd₁, hd₂, hd₃, h₃, .crossRight ctx x l r sum hf hleft hright⟩

omit [Field W] [LinearOrder T] in
/-- The parent of the node at the cut, which has the node on one side only. -/
theorem Has.side {n : ℕ} (h : d.Has R (f :: ctx) t) (hn : t.root = some n) :
    ∃ pnode, d.node f.x.place = some pnode ∧ pnode.m_mark = f.x.mark
      ∧ pnode.parent = ctx.parent ∧ (pnode.left = some n ↔ f.isLeft = true)
      ∧ (pnode.right = some n ↔ f.isLeft = false) := by
  have hplug := has_cons.mp h
  have hne : f.far.root ≠ some n := hplug.far_ne hn
  obtain ⟨isLeft, fx, ffar⟩ := f
  refine ⟨_, hplug.node, rfl, rfl, ?_⟩
  cases isLeft with
  | true => exact ⟨iff_of_true hn rfl, iff_of_false hne (by simp)⟩
  | false => exact ⟨iff_of_false hne (by simp), iff_of_true hn rfl⟩

omit [LinearOrder T] in
/-- `split` succeeds, where the root is black. -/
theorem split_has (h : d.Has R ctx (.node x l r)) (hroot : ctx.rootMark x.mark = false) :
    ∃ d' ctx' x' l' r', d.split x.place = some d' ∧ d'.Has R ctx' (.node x' l' r')
      ∧ SplitTo ctx x (l.setMark false) (r.setMark false) ctx' x' l' r' := by
  have hnode := h.node_eq
  obtain ⟨d₁, d₂, hd₁, hd₂, h₂⟩ := blacken_has h
  rw [split, hnode]
  show ∃ d' ctx' x' l' r', ((d.modifyIf l.root PDFNode.markBlack).bind fun d =>
    (d.modifyIf r.root PDFNode.markBlack).bind fun d => _) = some d' ∧ _
  rw [hd₁, Option.bind_some, hd₂, Option.bind_some]
  cases ctx with
  | nil => exact ⟨d₂, [], x, _, _, rfl, h₂, .root x _ _⟩
  | cons f ctx =>
    obtain ⟨d₃, hd₃, h₃⟩ := withMark_has h₂ true
    obtain ⟨pnode, hpnode, hpmark, hpparent, hpleft, hpright⟩ := h₃.side (n := x.place) rfl
    show ∃ d' ctx' x' l' r', ((d₂.modify x.place PDFNode.markRed).bind fun d =>
      (d.node f.x.place).bind fun pnode => _) = some d' ∧ _
    have hd₃' : d₂.modify x.place PDFNode.markRed = some d₃ := hd₃
    rw [hd₃', Option.bind_some, hpnode, Option.bind_some]
    cases hf : f.x.mark with
    | false =>
      rw [hpmark, hf, if_neg (by simp)]
      exact ⟨d₃, f :: ctx, x.withMark true, _, _, rfl, h₃, .below ctx x _ _ hf⟩
    | true =>
      rw [hpmark, hf, if_pos rfl, hpparent]
      cases ctx with
      | nil =>
        -- the root is black
        have hmark : f.x.mark = false := hroot
        exact absurd (hf.symm.trans hmark) (by simp)
      | cons g ctx =>
        -- the grandparent becomes red
        have hg : d₃.Has R ctx (g.plug (f.plug (.node (x.withMark true) (l.setMark false)
            (r.setMark false)))) := has_cons.mp (has_cons.mp h₃)
        obtain ⟨d₄, hd₄, h₄⟩ := relabel_has hg (g.x.withMark true) PDFNode.markRed
          (fun _ _ _ => rfl) rfl
        have hcut : d₄.Has R (⟨g.isLeft, g.x.withMark true, g.far⟩ :: ctx) (f.plug
          (.node (x.withMark true) (l.setMark false) (r.setMark false))) := has_cons.mpr h₄
        obtain ⟨ppnode, hppnode, -, -, hppleft, hppright⟩ :=
          hcut.side (n := f.x.place) (f.root_plug _)
        have hppnode : d₄.node g.x.place = some ppnode := hppnode
        have hcut₂ := has_cons.mpr hcut
        show ∃ d' ctx' x' l' r', ((d₃.modify g.x.place PDFNode.markRed).bind fun d =>
          (d.node g.x.place).bind fun ppnode => _) = some d' ∧ _
        rw [hd₄, Option.bind_some, hppnode, Option.bind_some]
        have hsides : (pnode.left = some x.place ∧ ppnode.left = some f.x.place)
            ∨ (pnode.right = some x.place ∧ ppnode.right = some f.x.place)
            ↔ f.isLeft = g.isLeft := by
          rw [hpleft, hpright, hppleft, hppright]
          cases f.isLeft <;> cases g.isLeft <;> simp
        by_cases hside : f.isLeft = g.isLeft
        · rw [if_pos (hsides.mpr hside)]
          have hside' : f.isLeft = (⟨g.isLeft, g.x.withMark true, g.far⟩ : PDFFrame T W).isLeft :=
            hside
          obtain ⟨d₅, d₆, sum, hd₅, hd₆, h₆⟩ := rotateSame_has hside' hcut₂
          rw [hd₅, Option.bind_eq_bind, Option.bind_some]
          exact ⟨d₆, _, _, _, _, hd₆, h₆, .same ctx x _ _ sum hf hside⟩
        · rw [if_neg fun h => hside (hsides.mp h)]
          obtain ⟨d₅, d₆, d₇, x', l', r', hd₅, hd₆, hd₇, h₇, hto⟩ :=
            rotateCross_has hf hside hcut₂
          rw [hd₅, Option.bind_eq_bind, Option.bind_some]
          show ∃ d' ctx' x' l' r', ((d₅.rotate x.place).bind fun d => _) = some d' ∧ _
          rw [hd₆, Option.bind_some]
          exact ⟨d₇, ctx, x', l', r', hd₇, h₇, hto⟩

/-! ## What a split keeps -/

variable {ctx' : PDFContext T W} {x' : PDFLabel T W} {l' r' : PDFTree T W}

omit [LinearOrder T] in
theorem SplitTo.place (h : SplitTo ctx x l r ctx' x' l' r') : x'.place = x.place := by
  cases h <;> rfl

omit [LinearOrder T] in
theorem SplitTo.key (h : SplitTo ctx x l r ctx' x' l' r') : x'.key = x.key := by
  cases h <;> rfl

omit [LinearOrder T] in
/-- The root stays black. -/
theorem SplitTo.rootMark (h : SplitTo ctx x l r ctx' x' l' r')
    (hroot : ctx.rootMark x.mark = false) : ctx'.rootMark x'.mark = false := by
  cases h with
  | root => exact hroot
  | below => exact hroot
  | same | crossLeft | crossRight => exact PDFContext.rootMark_black hroot

omit [LinearOrder T] in
/-- The items keep their order. -/
theorem SplitTo.entries (h : SplitTo ctx x l r ctx' x' l' r') :
    (ctx'.plug (.node x' l' r')).entries = (ctx.plug (.node x l r)).entries := by
  rw [PDFContext.entries_plug, PDFContext.entries_plug]
  cases h with
  | root => rfl
  | below => rfl
  | @same f g ctx _ _ _ sum hf hside =>
    obtain ⟨fLeft, fx, ffar⟩ := f
    obtain ⟨gLeft, gx, gfar⟩ := g
    obtain rfl : fLeft = gLeft := hside
    cases fLeft with
    | true =>
      simp [PDFContext.before, PDFContext.after, PDFFrame.before, PDFFrame.after, PDFFrame.plug,
        PDFTree.entries, PDFLabel.withMark, PDFLabel.withSum]
    | false =>
      simp [PDFContext.before, PDFContext.after, PDFFrame.before, PDFFrame.after, PDFFrame.plug,
        PDFTree.entries, PDFLabel.withMark, PDFLabel.withSum]
  | @crossLeft f g ctx _ _ _ sum hf hleft hright =>
    simp [PDFContext.before, PDFContext.after, PDFFrame.before, PDFFrame.after, hleft, hright,
      PDFTree.entries, PDFLabel.withMark, PDFLabel.withSum]
  | @crossRight f g ctx _ _ _ sum hf hright hleft =>
    simp [PDFContext.before, PDFContext.after, PDFFrame.before, PDFFrame.after, hleft, hright,
      PDFTree.entries, PDFLabel.withMark, PDFLabel.withSum]

/-- An item belongs below the node as before. -/
theorem SplitTo.fits (h : SplitTo ctx x l r ctx' x' l' r') (hfits : Fits item ctx) :
    Fits item ctx' := by
  obtain ⟨hbefore, hafter⟩ := hfits
  cases h with
  | root => exact ⟨hbefore, hafter⟩
  | below => exact ⟨hbefore, hafter⟩
  | @same f g ctx _ _ _ sum hf hside =>
    obtain ⟨fLeft, fx, ffar⟩ := f
    obtain ⟨gLeft, gx, gfar⟩ := g
    obtain rfl : fLeft = gLeft := hside
    cases fLeft with
    | true =>
      constructor
      · simpa [PDFContext.before, PDFFrame.before] using hbefore
      · simpa [PDFContext.after, PDFFrame.after, PDFFrame.plug, PDFTree.entries,
          PDFLabel.withMark, PDFLabel.withSum] using hafter
    | false =>
      constructor
      · simpa [PDFContext.before, PDFFrame.before, PDFFrame.plug, PDFTree.entries,
          PDFLabel.withMark, PDFLabel.withSum] using hbefore
      · simpa [PDFContext.after, PDFFrame.after] using hafter
  | crossLeft | crossRight =>
    constructor
    · intro e he
      apply hbefore
      exact List.mem_append_left _ (List.mem_append_left _ he)
    · intro e he
      apply hafter
      exact List.mem_append_right _ (List.mem_append_right _ he)

omit [LinearOrder T] in
/-- The sums off the way stay right. -/
theorem SplitTo.sums (h : SplitTo ctx x l r ctx' x' l' r') (hctx : ctx.FarSums) (hl : l.Sums)
    (hr : r.Sums) : ctx'.FarSums ∧ l'.Sums ∧ r'.Sums := by
  cases h with
  | root => exact ⟨hctx, hl, hr⟩
  | below => exact ⟨hctx, hl, hr⟩
  | same _ _ _ _ sum =>
    obtain ⟨hf, hctx⟩ := List.forall_mem_cons.mp hctx
    obtain ⟨hg, hctx⟩ := List.forall_mem_cons.mp hctx
    exact ⟨List.forall_mem_cons.mpr ⟨sums_plug _ _ hf hg, hctx⟩, hl, hr⟩
  | crossLeft =>
    obtain ⟨hf, hctx⟩ := List.forall_mem_cons.mp hctx
    obtain ⟨hg, hctx⟩ := List.forall_mem_cons.mp hctx
    exact ⟨hctx, ⟨add_right_comm _ _ _, hg, hl⟩, rfl, hr, hf⟩
  | crossRight =>
    obtain ⟨hf, hctx⟩ := List.forall_mem_cons.mp hctx
    obtain ⟨hg, hctx⟩ := List.forall_mem_cons.mp hctx
    exact ⟨hctx, ⟨add_right_comm _ _ _, hf, hl⟩, rfl, hr, hg⟩

/-- The way down becomes longer by one node at most, and then the node below it is not
split. -/
theorem SplitTo.steps_le (h : SplitTo ctx x l r ctx' x' l' r') (hfits : Fits item ctx)
    (hl : l.mark = false) (hr : r.mark = false) :
    (item < x.key → l'.steps item ≤ 2 * l.pathLength item + 2)
      ∧ (x.key < item → r'.steps item ≤ 2 * r.pathLength item + 2) := by
  have hstay : (item < x.key → l.steps item ≤ 2 * l.pathLength item + 2)
      ∧ (x.key < item → r.steps item ≤ 2 * r.pathLength item + 2) :=
    ⟨fun _ => (l.steps_le item).trans (Nat.le_succ _),
      fun _ => (r.steps_le item).trans (Nat.le_succ _)⟩
  cases h with
  | root => exact hstay
  | below => exact hstay
  | same => exact hstay
  | @crossLeft f g ctx _ _ _ sum hf hleft hright =>
    have hg : g.x.key < item := by
      apply hfits.before (g.x.key, g.x.weight)
      simp [PDFContext.before, PDFFrame.before, hright]
    have hf' : item < f.x.key := by
      apply hfits.after (f.x.key, f.x.weight)
      simp [PDFContext.after, PDFFrame.after, hleft]
    constructor
    · intro _
      simp [PDFTree.steps, PDFTree.pathLength, PDFTree.redChildren, PDFLabel.withMark,
        PDFLabel.withSum, hl, hg.le.not_gt]
      omega
    · intro _
      simp [PDFTree.steps, PDFTree.pathLength, PDFTree.redChildren, PDFLabel.withSum, hr, hf']
      omega
  | @crossRight f g ctx _ _ _ sum hf hright hleft =>
    have hg : item < g.x.key := by
      apply hfits.after (g.x.key, g.x.weight)
      simp [PDFContext.after, PDFFrame.after, hleft]
    have hf' : f.x.key < item := by
      apply hfits.before (f.x.key, f.x.weight)
      simp [PDFContext.before, PDFFrame.before, hright]
    constructor
    · intro _
      simp [PDFTree.steps, PDFTree.pathLength, PDFTree.redChildren, PDFLabel.withSum, hl,
        hf'.le.not_gt]
      omega
    · intro _
      simp [PDFTree.steps, PDFTree.pathLength, PDFTree.redChildren, PDFLabel.withMark,
        PDFLabel.withSum, hr, hg]
      omega

/-! ## The loop of `insert` -/

/-- What a pass of the loop makes of the node at the cut, before it goes on to a child. -/
inductive Prepared (ctx : PDFContext T W) (x : PDFLabel T W) (l r : PDFTree T W) :
    PDFContext T W → PDFLabel T W → PDFTree T W → PDFTree T W → Prop
  | split {ctx' : PDFContext T W} {x' : PDFLabel T W} {l' r' : PDFTree T W}
      (hred : (l.mark && r.mark) = true)
      (h : SplitTo ctx x (l.setMark false) (r.setMark false) ctx' x' l' r') :
      Prepared ctx x l r ctx' x' l' r'
  | keep (hblack : (l.mark && r.mark) = false) : Prepared ctx x l r ctx x l r

/-- The way down for an item ends under the frames `ctx'`. -/
inductive Descends (item : T) : PDFContext T W → PDFTree T W → PDFContext T W → Prop
  | nil (ctx : PDFContext T W) : Descends item ctx .nil ctx
  | left {ctx ctx' ctx'' : PDFContext T W} {x x' : PDFLabel T W} {l r l' r' : PDFTree T W}
      (h : Prepared ctx x l r ctx' x' l' r') (hlt : item < x.key)
      (hrest : Descends item (⟨true, x', r'⟩ :: ctx') l' ctx'') :
      Descends item ctx (.node x l r) ctx''
  | right {ctx ctx' ctx'' : PDFContext T W} {x x' : PDFLabel T W} {l r l' r' : PDFTree T W}
      (h : Prepared ctx x l r ctx' x' l' r') (hlt : x.key < item)
      (hrest : Descends item (⟨false, x', l'⟩ :: ctx') r' ctx'') :
      Descends item ctx (.node x l r) ctx''

/-- The tree with these entries is cut where the item belongs, and its root is black. -/
structure Way (item : T) (entries : List (T × W)) (ctx : PDFContext T W) (t : PDFTree T W) :
    Prop where
  entries : (ctx.plug t).entries = entries
  fits : Fits item ctx
  root : ctx.rootMark t.mark = false

/-- The items are in increasing order. -/
abbrev Increasing (entries : List (T × W)) : Prop := entries.Pairwise fun e e' => e.1 < e'.1

variable {item : T} {entries : List (T × W)}

omit [LinearOrder T] in
theorem Prepared.key (h : Prepared ctx x l r ctx' x' l' r') : x'.key = x.key := by
  cases h with
  | split _ h => exact h.key
  | keep => rfl

omit [LinearOrder T] in
theorem Prepared.place (h : Prepared ctx x l r ctx' x' l' r') : x'.place = x.place := by
  cases h with
  | split _ h => exact h.place
  | keep => rfl

/-- A pass of the loop stays on the way. -/
theorem Way.prepared (hway : Way item entries ctx (.node x l r))
    (h : Prepared ctx x l r ctx' x' l' r') : Way item entries ctx' (.node x' l' r') := by
  cases h with
  | keep => exact hway
  | split _ h =>
    refine ⟨?_, h.fits hway.fits, h.rootMark hway.root⟩
    rw [h.entries, ← hway.entries, PDFContext.entries_plug, PDFContext.entries_plug,
      PDFTree.entries, PDFTree.entries, PDFTree.entries_setMark, PDFTree.entries_setMark]

omit [Field W] in
/-- The way goes on to the left, for an item that is less. -/
theorem Way.left (hway : Way item entries ctx (.node x l r)) (hsorted : Increasing entries)
    (hlt : item < x.key) : Way item entries (⟨true, x, r⟩ :: ctx) l := by
  obtain ⟨hentries, ⟨hbefore, hafter⟩, hroot⟩ := hway
  refine ⟨hentries, ⟨?_, ?_⟩, hroot⟩
  · intro e he
    apply hbefore
    simpa [PDFContext.before, PDFFrame.before] using he
  · intro e he
    rw [← hentries, PDFContext.entries_plug, PDFTree.entries] at hsorted
    have hnode := (List.pairwise_append.mp (List.pairwise_append.mp hsorted).1).2.1
    have hright := (List.pairwise_cons.mp (List.pairwise_append.mp hnode).2.1).1
    rcases List.mem_append.mp he with he | he
    · rcases List.mem_cons.mp he with rfl | he
      · exact hlt
      · exact hlt.trans (hright e he)
    · exact hafter e he

omit [Field W] in
/-- It goes on to the right, for an item that is greater. -/
theorem Way.right (hway : Way item entries ctx (.node x l r)) (hsorted : Increasing entries)
    (hlt : x.key < item) : Way item entries (⟨false, x, l⟩ :: ctx) r := by
  obtain ⟨hentries, ⟨hbefore, hafter⟩, hroot⟩ := hway
  refine ⟨hentries, ⟨?_, ?_⟩, hroot⟩
  · intro e he
    rw [← hentries, PDFContext.entries_plug, PDFTree.entries] at hsorted
    have hnode := (List.pairwise_append.mp (List.pairwise_append.mp hsorted).1).2.1
    have hleft := (List.pairwise_append.mp hnode).2.2
    rcases List.mem_append.mp he with he | he
    · exact hbefore e he
    · rcases List.mem_append.mp he with he | he
      · exact (hleft e he (x.key, x.weight) List.mem_cons_self).trans hlt
      · rw [List.mem_singleton.mp he]
        exact hlt
  · intro e he
    apply hafter
    simpa [PDFContext.after, PDFFrame.after] using he

omit [Field W] in
/-- An item that is in the tree nowhere is not the item of the node. -/
theorem Way.ne (hway : Way item entries ctx (.node x l r)) (habsent : ∀ e ∈ entries, e.1 ≠ item) :
    x.key ≠ item := by
  apply habsent (x.key, x.weight)
  rw [← hway.entries, PDFContext.entries_plug, PDFTree.entries]
  simp

theorem Prepared.steps_le (h : Prepared ctx x l r ctx' x' l' r') (hfits : Fits item ctx)
    (hfuel : (PDFTree.node x l r).steps item ≤ fuel + 1) :
    (item < x.key → l'.steps item ≤ fuel) ∧ (x.key < item → r'.steps item ≤ fuel) := by
  have hpath : (item < x.key → (PDFTree.node x l r).pathLength item = l.pathLength item + 1)
      ∧ (x.key < item → (PDFTree.node x l r).pathLength item = r.pathLength item + 1) := by
    constructor
    · intro hlt
      rw [PDFTree.pathLength, if_pos hlt]
    · intro hlt
      rw [PDFTree.pathLength, if_neg hlt.le.not_gt]
  rw [PDFTree.steps, PDFTree.redChildren] at hfuel
  cases h with
  | split hred h =>
    rw [hred, if_pos rfl] at hfuel
    obtain ⟨hleft, hright⟩ := h.steps_le hfits (l.mark_setMark_false) (r.mark_setMark_false)
    rw [PDFTree.pathLength_setMark] at hleft hright
    constructor
    · intro hlt
      have hsteps := hleft hlt
      rw [hpath.1 hlt] at hfuel
      omega
    · intro hlt
      have hsteps := hright hlt
      rw [hpath.2 hlt] at hfuel
      omega
  | keep hblack =>
    rw [hblack, if_neg (by simp)] at hfuel
    constructor
    · intro hlt
      have hsteps := l.steps_le item
      rw [hpath.1 hlt] at hfuel
      omega
    · intro hlt
      have hsteps := r.steps_le item
      rw [hpath.2 hlt] at hfuel
      omega

omit [Field W] [LinearOrder T] in
theorem childIsBlack_has (h : d.Has R ctx t) :
    d.childIsBlack t.root = some (!t.mark) := by
  cases t with
  | nil => rfl
  | node x l r =>
    show (d.node x.place).map _ = _
    rw [h.node_eq]
    rfl

omit [Field W] [LinearOrder T] in
theorem isBlack_children (h : d.Has R ctx (.node x l r)) :
    d.leftIsBlack x.place = some (!l.mark) ∧ d.rightIsBlack x.place = some (!r.mark) := by
  have hl : d.Has R (⟨true, x, r⟩ :: ctx) l := has_cons.mpr h
  have hr : d.Has R (⟨false, x, l⟩ :: ctx) r := has_cons.mpr h
  constructor
  · rw [leftIsBlack, h.node_eq]
    exact childIsBlack_has hl
  · rw [rightIsBlack, h.node_eq]
    exact childIsBlack_has hr

omit [LinearOrder T] in
/-- A pass of the loop, up to the choice of a child. -/
theorem prepare_has (h : d.Has R ctx (.node x l r)) (hroot : ctx.rootMark x.mark = false) :
    ∃ d' ctx' x' l' r', (if !(!l.mark) && !(!r.mark) then d.split x.place else some d) = some d'
      ∧ d'.Has R ctx' (.node x' l' r') ∧ Prepared ctx x l r ctx' x' l' r' := by
  rw [Bool.not_not, Bool.not_not]
  cases hred : l.mark && r.mark with
  | true =>
    obtain ⟨d', ctx', x', l', r', hd', h', hto⟩ := split_has h hroot
    rw [if_pos rfl]
    exact ⟨d', ctx', x', l', r', hd', h', .split hred hto⟩
  | false =>
    rw [if_neg (by simp)]
    exact ⟨d, ctx, x, l, r, rfl, h, .keep hred⟩

/-- A pass of the loop. -/
theorem insertLoop_some (d : DiscretePDF T W) (item : T) (fuel n : ℕ) (p : Option ℕ) :
    insertLoop item (fuel + 1) d p (some n)
      = (d.leftIsBlack n).bind fun left => (d.rightIsBlack n).bind fun right =>
          (if !left && !right then d.split n else some d).bind fun d =>
            (d.node n).bind fun node =>
              if node.key = item then none
              else insertLoop item fuel d (some n)
                (if item < node.key then node.left else node.right) := by
  rw [insertLoop]
  cases d.leftIsBlack n with
  | none => rfl
  | some left =>
    cases d.rightIsBlack n with
    | none => rfl
    | some right => cases left <;> cases right <;> rfl

/-- The loop of `insert` ends where the item belongs, if it is not in the tree. -/
theorem insertLoop_has {p : Option ℕ} (h : d.Has R ctx t) (hp : p = ctx.parent)
    (hway : Way item entries ctx t) (hsorted : Increasing entries)
    (habsent : ∀ e ∈ entries, e.1 ≠ item) (hfuel : t.steps item ≤ fuel) :
    ∃ d' ctx', insertLoop item fuel d p t.root = some (d', ctx'.parent) ∧ d'.Has R ctx' .nil
      ∧ Way item entries ctx' .nil ∧ Descends item ctx t ctx' := by
  induction fuel generalizing d ctx t p with
  | zero =>
    cases t with
    | nil => exact ⟨d, ctx, by rw [hp]; rfl, h, hway, .nil ctx⟩
    | node x l r =>
      rw [PDFTree.steps, PDFTree.pathLength] at hfuel
      omega
  | succ fuel ih =>
    cases t with
    | nil => exact ⟨d, ctx, by rw [hp]; rfl, h, hway, .nil ctx⟩
    | node x l r =>
      obtain ⟨hleft, hright⟩ := isBlack_children h
      obtain ⟨d₁, ctx₁, x₁, l₁, r₁, hd₁, h₁, hprep⟩ := prepare_has h hway.root
      have hway₁ := hway.prepared hprep
      have hne : x.key ≠ item := hway.ne habsent
      have hstep : insertLoop item (fuel + 1) d p (some x.place)
          = insertLoop item fuel d₁ (some x.place)
            (if item < x.key then l₁.root else r₁.root) := by
        have hnode := h₁.node_eq
        rw [hprep.place] at hnode
        rw [insertLoop_some, hleft, Option.bind_some, hright, Option.bind_some, hd₁,
          Option.bind_some, hnode, Option.bind_some]
        dsimp only
        rw [hprep.key, if_neg hne]
      have hparent : some x.place = some x₁.place := congrArg some hprep.place.symm
      have hsteps := hprep.steps_le hway.fits hfuel
      show ∃ d' ctx', insertLoop item (fuel + 1) d p (some x.place) = _ ∧ _
      rw [hstep]
      rcases lt_or_gt_of_ne hne with hlt | hlt
      · -- the item is greater
        rw [if_neg hlt.le.not_gt]
        have hnext := hway₁.right hsorted (hprep.key ▸ hlt)
        obtain ⟨d', ctx', hd', h', hway', hdesc⟩ :=
          ih (has_cons.mpr h₁) hparent hnext (hsteps.2 hlt)
        exact ⟨d', ctx', hd', h', hway', .right hprep hlt hdesc⟩
      · rw [if_pos hlt]
        have hnext := hway₁.left hsorted (hprep.key ▸ hlt)
        obtain ⟨d', ctx', hd', h', hway', hdesc⟩ :=
          ih (has_cons.mpr h₁) hparent hnext (hsteps.1 hlt)
        exact ⟨d', ctx', hd', h', hway', .left hprep hlt hdesc⟩

omit [LinearOrder T] in
/-- The sums off the way are right at its end. -/
theorem Prepared.sums (h : Prepared ctx x l r ctx' x' l' r') (hctx : ctx.FarSums) (hl : l.Sums)
    (hr : r.Sums) : ctx'.FarSums ∧ l'.Sums ∧ r'.Sums := by
  cases h with
  | split _ h => exact h.sums hctx (PDFTree.sums_setMark hl false) (PDFTree.sums_setMark hr false)
  | keep => exact ⟨hctx, hl, hr⟩

theorem Descends.farSums (h : Descends item ctx t ctx') (hctx : ctx.FarSums) (ht : t.Sums) :
    ctx'.FarSums := by
  induction h with
  | nil => exact hctx
  | left h _ _ ih =>
    obtain ⟨hctx', hl', hr'⟩ := h.sums hctx ht.2.1 ht.2.2
    exact ih (List.forall_mem_cons.mpr ⟨hr', hctx'⟩) hl'
  | right h _ _ ih =>
    obtain ⟨hctx', hl', hr'⟩ := h.sums hctx ht.2.1 ht.2.2
    exact ih (List.forall_mem_cons.mpr ⟨hl', hctx'⟩) hr'

/-! ## `insert` -/

/-- The node that `insert` makes. -/
def newLabel (n : ℕ) (item : T) (weight : W) : PDFLabel T W := ⟨n, false, item, weight, 0⟩

/-- The heap after `new Node(item, weight, p)`. -/
def withNode (d : DiscretePDF T W) (p : Option ℕ) (item : T) (weight : W) : DiscretePDF T W :=
  { d with heap := d.heap.alloc ⟨false, p, none, none, item, weight, 0⟩ }

omit [LinearOrder T] in
/-- The new node becomes the root. -/
theorem attachRoot_has (h : d.Has R [] .nil) (weight : W) :
    ({ d.withNode none item weight with m_root := some d.heap.next } : DiscretePDF T W).Has R []
      (.node (newLabel d.heap.next item weight) .nil .nil) := by
  have halloc := h.holds.alloc ⟨false, none, none, none, item, weight, (0 : W)⟩
  refine ⟨rfl, halloc.congr ?_⟩
  show _ = (newLabel d.heap.next item weight).cell none true none none ::ₘ (0 + 0) + 0 + R
  rw [add_zero, add_zero, Multiset.cons_add, zero_add]
  exact congrArg _ (zero_add R)

omit [LinearOrder T] in
/-- The new node becomes a child of the last node of the way. -/
theorem attach_has (h : d.Has R (f :: ctx) .nil) (weight : W) (g : PDFNode T W → PDFNode T W)
    (hg : ∀ parent, g (f.x.cell parent f.isLeft none f.far.root).2
      = (f.x.cell parent f.isLeft (some d.heap.next) f.far.root).2) :
    ∃ d', (d.withNode (some f.x.place) item weight).modify f.x.place g = some d'
      ∧ d'.Has R (f :: ctx) (.node (newLabel d.heap.next item weight) .nil .nil) := by
  have halloc := h.holds.alloc ⟨false, some f.x.place, none, none, item, weight, (0 : W)⟩
  have hcells : (d.withNode (some f.x.place) item weight).heap.Holds
      (f.x.cell ctx.parent f.isLeft none f.far.root
        ::ₘ ((newLabel d.heap.next item weight).cell (some f.x.place) true none none
          ::ₘ (f.far.cells (some f.x.place) + ctx.cells (some f.x.place) + R))) := by
    refine halloc.congr ?_
    rw [PDFTree.cells, PDFContext.cells, zero_add, Multiset.cons_add]
    exact Multiset.cons_swap _ _ _
  obtain ⟨d', hd', hroot, h'⟩ := modify_cell hcells
    (f.x.cell ctx.parent f.isLeft (some d.heap.next) f.far.root) g (hg _) rfl
  refine ⟨d', hd', hroot.trans h.m_root, h'.congr ?_⟩
  show _ = ((newLabel d.heap.next item weight).cell (some f.x.place) true none none ::ₘ (0 + 0))
    + (f.x.cell ctx.parent f.isLeft (some d.heap.next) f.far.root
      ::ₘ (f.far.cells (some f.x.place) + ctx.cells (some f.x.place))) + R
  simp only [← Multiset.singleton_add]
  abel

/-- `d'` holds the tree in which the way for the item ends with its node, split there. -/
structure Inserted (item : T) (weight : W) (t t' : PDFTree T W) (ctx ctx' : PDFContext T W)
    (n : ℕ) (x' : PDFLabel T W) (l' r' : PDFTree T W) : Prop where
  descends : Descends item [] t ctx
  splits : SplitTo ctx (newLabel n item weight) .nil .nil ctx' x' l' r'
  bare : t'.bare = (ctx'.plug (.node x' l' r')).bare

/-- The middle of `insert`: the new node is linked under `p` and split there. -/
def linked (d : DiscretePDF T W) (p : Option ℕ) (item : T) (weight : W) :
    Option (DiscretePDF T W) :=
  match p with
  | none => some { d.withNode none item weight with m_root := some d.heap.next }
  | some p => ((d.withNode (some p) item weight).node p).bind fun pnode =>
      (if item < pnode.key then (d.withNode (some p) item weight).modify p fun node =>
          { node with left := some d.heap.next }
        else (d.withNode (some p) item weight).modify p fun node =>
          { node with right := some d.heap.next }).bind fun d' => d'.split d.heap.next

theorem insert_eq (d : DiscretePDF T W) (item : T) (weight : W) :
    d.insert item weight = (insertLoop item d.fuel d none d.m_root).bind fun (d, p) =>
      (d.linked p item weight).bind fun d' => d'.propogateSumsUp (some d.heap.next) := by
  rw [insert]
  cases insertLoop item d.fuel d none d.m_root with
  | none => rfl
  | some loop =>
    obtain ⟨d, p⟩ := loop
    cases p with
    | none => rfl
    | some p =>
      simp only [Option.bind_some, Option.bind_eq_bind, linked, Option.bind_assoc, withNode]
      apply congrArg
      funext pnode
      split
      next => rfl
      next => rfl

theorem linked_has (h : d.Has R ctx .nil) (hway : Way item entries ctx .nil) (weight : W) :
    ∃ d' ctx' x' l' r', d.linked ctx.parent item weight = some d' ∧ d'.Has R ctx' (.node x' l' r')
      ∧ SplitTo ctx (newLabel d.heap.next item weight) .nil .nil ctx' x' l' r' := by
  cases ctx with
  | nil => exact ⟨_, [], _, _, _, rfl, attachRoot_has h weight, .root _ _ _⟩
  | cons f ctx =>
    have hnode : (d.withNode (some f.x.place) item weight).node f.x.place
        = some (f.x.cell (PDFContext.parent ctx) f.isLeft none f.far.root).2 := by
      have halloc := h.holds.alloc ⟨false, some f.x.place, none, none, item, weight, (0 : W)⟩
      rw [PDFTree.cells, PDFContext.cells, zero_add, Multiset.cons_add, Multiset.cons_swap] at halloc
      exact node_eq halloc
    obtain ⟨d₁, hd₁, h₁⟩ : ∃ d₁, (if item < f.x.key then
          (d.withNode (some f.x.place) item weight).modify f.x.place fun node =>
            { node with left := some d.heap.next }
        else (d.withNode (some f.x.place) item weight).modify f.x.place fun node =>
            { node with right := some d.heap.next }) = some d₁
        ∧ d₁.Has R (f :: ctx) (.node (newLabel d.heap.next item weight) .nil .nil) := by
      cases hside : f.isLeft with
      | true =>
        have hlt : item < f.x.key := by
          apply hway.fits.after (f.x.key, f.x.weight)
          simp [PDFContext.after, PDFFrame.after, hside]
        rw [if_pos hlt]
        exact attach_has h weight _ fun parent => by rw [hside]; rfl
      | false =>
        have hlt : f.x.key < item := by
          apply hway.fits.before (f.x.key, f.x.weight)
          simp [PDFContext.before, PDFFrame.before, hside]
        rw [if_neg hlt.le.not_gt]
        exact attach_has h weight _ fun parent => by rw [hside]; rfl
    obtain ⟨d₂, ctx', x', l', r', hd₂, h₂, hto⟩ := split_has h₁ hway.root
    refine ⟨d₂, ctx', x', l', r', ?_, h₂, hto⟩
    show ((d.withNode (some f.x.place) item weight).node f.x.place).bind _ = _
    rw [hnode, Option.bind_some]
    show Option.bind (if item < f.x.key then _ else _) _ = _
    rw [hd₁, Option.bind_some]
    exact hd₂

/-- `insert` succeeds for an item that is not in the tree. -/
theorem insert_has (h : d.Has R [] t) (hsums : t.Sums) (hroot : t.mark = false)
    (hsorted : Increasing t.entries) (habsent : ∀ e ∈ t.entries, e.1 ≠ item) (weight : W) :
    ∃ d' t' ctx ctx' n x' l' r', d.insert item weight = some d' ∧ d'.Has R [] t' ∧ t'.Sums
      ∧ Way item t.entries ctx .nil ∧ Inserted item weight t t' ctx ctx' n x' l' r' := by
  have hway : Way item t.entries [] t :=
    ⟨rfl, ⟨fun e he => absurd he List.not_mem_nil, fun e he => absurd he List.not_mem_nil⟩, hroot⟩
  have hfuel : t.steps item ≤ d.fuel := by
    have hsteps := t.steps_le item
    have hpath := t.pathLength_le_size item
    have hsize := h.length_le
    rw [List.length_nil] at hsize
    unfold fuel
    omega
  obtain ⟨d₁, ctx, hd₁, h₁, hway₁, hdesc⟩ := insertLoop_has h rfl hway hsorted habsent hfuel
  have hctx : ctx.FarSums :=
    hdesc.farSums (fun f hf => absurd hf List.not_mem_nil) hsums
  have hloop : insertLoop item d.fuel d none d.m_root = some (d₁, ctx.parent) := by
    rw [h.m_root]
    exact hd₁
  obtain ⟨d₂, ctx', x', l', r', hd₂, h₂, hto⟩ := linked_has h₁ hway₁ weight
  obtain ⟨hctx', hl', hr'⟩ := hto.sums hctx trivial trivial
  have hplug : d₂.Has R ctx' ((⟨true, x', r'⟩ : PDFFrame T W).plug l') := h₂
  obtain ⟨d₃, t', hd₃, h₃, hsums₃, hbare⟩ := propogateSumsUp_has hplug hl' hr' hctx'
  refine ⟨d₃, t', ctx, ctx', d₁.heap.next, x', l', r', ?_, h₃, hsums₃, hway₁, hdesc, hto, hbare⟩
  have hplace : x'.place = d₁.heap.next := hto.place
  rw [hplace] at hd₃
  rw [insert_eq, hloop, Option.bind_some]
  dsimp only
  rw [hd₂, Option.bind_some]
  exact hd₃

end Split

end DiscretePDF

end Xklee
