/-
Removing from a weighted choice.

An item with a left child changes places with the greatest item on its left, so that the node
that is taken out has one child at most. The child comes up into its place. Where the node was
black, `lengthen` makes up for it; a missing child is not lengthened.

`lengthen` recolours and rotates above the child, along the way to the root only, so that the
sums beside that way stay right, and `propogateSumsUp` takes those on it again.
-/
import Xklee.ADT.PDFInsert

set_option autoImplicit false

namespace Xklee

variable {T W : Type}

/-! ## Places -/

namespace PDFContext

/-- The pointer to the part that is cut off. -/
def place : PDFContext T W → DiscretePDF.Place
  | [] => .root
  | f :: _ => if f.isLeft then .left f.x.place else .right f.x.place

theorem plug_append (inner ctx : PDFContext T W) (t : PDFTree T W) :
    plug (inner ++ ctx) t = plug ctx (plug inner t) := by
  induction inner generalizing t with
  | nil => rfl
  | cons f inner ih =>
    rw [List.cons_append, plug, plug]
    exact ih _

theorem before_append (inner ctx : PDFContext T W) :
    before (inner ++ ctx) = before ctx ++ before inner := by
  induction inner with
  | nil => exact (List.append_nil _).symm
  | cons f inner ih => rw [List.cons_append, before, before, ih, List.append_assoc]

theorem after_append (inner ctx : PDFContext T W) :
    after (inner ++ ctx) = after inner ++ after ctx := by
  induction inner with
  | nil => rfl
  | cons f inner ih => rw [List.cons_append, after, after, ih, List.append_assoc]

end PDFContext

namespace DiscretePDF

section Places

variable {d : DiscretePDF T W} {R S : Multiset (ℕ × PDFNode T W)} {ctx : PDFContext T W}
  {t : PDFTree T W}

theorem Has.of_plug_eq {ctx' : PDFContext T W} {t' : PDFTree T W} (h : d.Has R ctx t)
    (heq : ctx'.plug t' = ctx.plug t) : d.Has R ctx' t' := by
  rw [has_iff, heq]
  exact has_iff.mp h

theorem load_place (h : d.Has R ctx t) : d.load ctx.place = some t.root := by
  cases ctx with
  | nil => exact congrArg some h.m_root
  | cons f ctx =>
    have hnode := (has_cons.mp h).node
    obtain ⟨isLeft, x, far⟩ := f
    cases isLeft with
    | true =>
      show (d.node x.place).map _ = _
      rw [show d.node x.place = _ from hnode]
      rfl
    | false =>
      show (d.node x.place).map _ = _
      rw [show d.node x.place = _ from hnode]
      rfl

/-- An assignment through the pointer to the part that is cut off. -/
theorem store_leaves {child : Option ℕ} (hroot : d.m_root = ctx.rootOf child)
    (h : d.heap.Holds (ctx.cells child + S)) (child' : Option ℕ) :
    Leaves (d.store ctx.place child') (ctx.rootOf child') (ctx.cells child' + S) := by
  cases ctx with
  | nil => exact ⟨{ d with m_root := child' }, rfl, rfl, h⟩
  | cons f ctx =>
    rw [PDFContext.cells, Multiset.cons_add] at h
    have hlink : ∀ g : PDFNode T W → PDFNode T W,
        g (f.x.cell (PDFContext.parent ctx) f.isLeft child f.far.root).2
          = (f.x.cell (PDFContext.parent ctx) f.isLeft child' f.far.root).2 →
        Leaves (d.modify f.x.place g) (PDFContext.rootOf (f :: ctx) child')
          (PDFContext.cells (f :: ctx) child' + S) := by
      intro g hg
      obtain ⟨d₁, hd₁, hroot₁, h₁⟩ := modify_cell h
        (f.x.cell (PDFContext.parent ctx) f.isLeft child' f.far.root) g hg rfl
      refine ⟨d₁, hd₁, hroot₁.trans hroot, ?_⟩
      rw [PDFContext.cells, Multiset.cons_add]
      exact h₁
    obtain ⟨isLeft, x, far⟩ := f
    cases isLeft with
    | true => exact hlink _ rfl
    | false => exact hlink _ rfl

/-- The node at the cut is taken out, and its child comes up. -/
theorem unlink_has {y : PDFLabel T W} {c near far : PDFTree T W}
    (h : d.Has R ctx (.node y near far)) (hc : (near = .nil ∧ c = far) ∨ (far = .nil ∧ c = near)) :
    ∃ d₁ d₂ cell, d.store ctx.place c.root = some d₁
      ∧ d₁.modifyIf c.root (fun child => { child with parent := ctx.parent }) = some d₂
      ∧ cell.1 = y.place ∧ d₂.Has (cell ::ₘ R) ctx c := by
  have hholds : d.heap.Holds (ctx.cells (some y.place) + (c.cells (some y.place)
      + (y.cell ctx.parent true near.root far.root ::ₘ R))) := by
    refine h.holds.congr ?_
    rw [PDFTree.cells, PDFTree.root]
    rcases hc with ⟨rfl, rfl⟩ | ⟨rfl, rfl⟩
    · simp only [← Multiset.singleton_add, PDFTree.cells]
      abel
    · simp only [← Multiset.singleton_add, PDFTree.cells]
      abel
  obtain ⟨d₁, hd₁, hroot₁, h₁⟩ := store_leaves h.m_root hholds c.root
  have hchild : d₁.heap.Holds (c.cells (some y.place) + (ctx.cells c.root
      + (y.cell ctx.parent true near.root far.root ::ₘ R))) := by
    refine h₁.congr ?_
    abel
  obtain ⟨d₂, hd₂, hroot₂, h₂⟩ := setParent_leaves hchild ctx.parent
  refine ⟨d₁, d₂, y.cell ctx.parent true near.root far.root, hd₁, hd₂, rfl,
    hroot₂.trans hroot₁, h₂.congr ?_⟩
  abel

end Places

/-! ## Lookups -/

section Lookup

variable [LinearOrder T] {d : DiscretePDF T W} {R : Multiset (ℕ × PDFNode T W)}
  {ctx : PDFContext T W} {t : PDFTree T W} {item : T} {entries : List (T × W)}

/-- `lookup` stops at the node with the item, or where there would be one. -/
theorem lookupLoop_has {fuel : ℕ} (h : d.Has R ctx t) (hway : Way item entries ctx t)
    (hsorted : Increasing entries) (hfuel : t.pathLength item < fuel) :
    ∃ (ctx' : PDFContext T W) (t' : PDFTree T W), d.lookupLoop item fuel ctx.place = some ctx'.place ∧ ctx'.plug t' = ctx.plug t
      ∧ Way item entries ctx' t' ∧ (t' = .nil ∨ ∃ x l r, t' = .node x l r ∧ x.key = item) := by
  induction fuel generalizing ctx t with
  | zero => omega
  | succ fuel ih =>
    rw [lookupLoop, load_place h]
    cases t with
    | nil => exact ⟨ctx, .nil, rfl, rfl, hway, .inl rfl⟩
    | node x l r =>
      have hnode := h.node_eq
      show ∃ (ctx' : PDFContext T W) (t' : PDFTree T W), ((d.node x.place).bind fun node => if node.key = item then some ctx.place
        else d.lookupLoop item fuel (if item < node.key then .left x.place else .right x.place))
          = some ctx'.place ∧ _
      rw [hnode, Option.bind_some]
      dsimp only
      by_cases hkey : x.key = item
      · rw [if_pos hkey]
        exact ⟨ctx, .node x l r, rfl, rfl, hway, .inr ⟨x, l, r, rfl, hkey⟩⟩
      · rw [if_neg hkey]
        rw [PDFTree.pathLength] at hfuel
        rcases lt_or_gt_of_ne hkey with hlt | hlt
        · rw [if_neg hlt.le.not_gt] at hfuel ⊢
          have hchild : d.Has R (⟨false, x, l⟩ :: ctx) r := has_cons.mpr h
          exact ih hchild (hway.right hsorted hlt) (by omega)
        · rw [if_pos hlt] at hfuel ⊢
          have hchild : d.Has R (⟨true, x, r⟩ :: ctx) l := has_cons.mpr h
          exact ih hchild (hway.left hsorted hlt) (by omega)

theorem lookup_has (h : d.Has R [] t) (hroot : t.mark = false) (hsorted : Increasing t.entries) :
    ∃ (ctx : PDFContext T W) (t' : PDFTree T W), d.lookup item = some ctx.place ∧ ctx.plug t' = t
      ∧ Way item t.entries ctx t' ∧ (t' = .nil ∨ ∃ x l r, t' = .node x l r ∧ x.key = item) := by
  have hway : Way item t.entries [] t :=
    ⟨rfl, ⟨fun e he => absurd he List.not_mem_nil, fun e he => absurd he List.not_mem_nil⟩, hroot⟩
  have hfuel : t.pathLength item < d.fuel := by
    have hpath := t.pathLength_le_size item
    have hsize := h.length_le
    rw [List.length_nil] at hsize
    unfold fuel
    omega
  exact lookupLoop_has h hway hsorted hfuel

end Lookup

section LeftMax

variable {d : DiscretePDF T W} {R : Multiset (ℕ × PDFNode T W)} {ctx : PDFContext T W}

/-- The loop of `remove` stops at the node with the greatest item. -/
theorem leftMaxLoop_has {fuel : ℕ} {x : PDFLabel T W} {l r : PDFTree T W}
    (h : d.Has R ctx (.node x l r)) (hfuel : (PDFTree.node x l r).size ≤ fuel) :
    ∃ (inner : PDFContext T W) (y : PDFLabel T W) (a : PDFTree T W), d.leftMaxLoop fuel ctx.place = some (inner ++ ctx : PDFContext T W).place
      ∧ PDFContext.plug inner (.node y a .nil) = .node x l r ∧ PDFContext.after inner = [] := by
  induction fuel generalizing ctx x l r with
  | zero =>
    rw [PDFTree.size] at hfuel
    omega
  | succ fuel ih =>
    rw [leftMaxLoop, load_place h]
    show ∃ (inner : PDFContext T W) (y : PDFLabel T W) (a : PDFTree T W), ((d.node x.place).bind fun node =>
      if node.right = none then some ctx.place else d.leftMaxLoop fuel (.right x.place)) = _ ∧ _
    rw [h.node_eq, Option.bind_some]
    dsimp only
    cases r with
    | nil => exact ⟨[], x, l, if_pos rfl, rfl, rfl⟩
    | node x' l' r' =>
      have hchild : d.Has R (⟨false, x, l⟩ :: ctx) (.node x' l' r') := has_cons.mpr h
      have hsize : (PDFTree.node x' l' r').size ≤ fuel := by
        rw [PDFTree.size] at hfuel
        omega
      obtain ⟨inner, y, a, hloop, hplug, hafter⟩ := ih hchild hsize
      refine ⟨inner ++ [⟨false, x, l⟩], y, a, ?_, ?_, ?_⟩
      · rw [if_neg (by simp [PDFTree.root]), List.append_assoc]
        exact hloop
      · rw [PDFContext.plug_append, hplug]
        rfl
      · rw [PDFContext.after_append, hafter]
        rfl

end LeftMax

/-! ## `lengthen` -/

section Lengthen

variable {d : DiscretePDF T W} {R : Multiset (ℕ × PDFNode T W)} {ctx ctx' : PDFContext T W}
  {t : PDFTree T W}

variable {b : Bool} {x p q s : PDFLabel T W} {far A B t l r : PDFTree T W} {f : PDFFrame T W}

/-- The same tree, cut at the sibling. -/
theorem flip_has :
    d.Has R (⟨b, x, far⟩ :: ctx) t ↔ d.Has R (⟨!b, x, t⟩ :: ctx) far := by
  rw [has_cons, has_cons, PDFFrame.plug_flip]

/-- A change of the colour of the parent. -/
theorem markParent_has (h : d.Has R (f :: ctx) t) (mark : Bool) :
    ∃ d', d.modify f.x.place (fun node => { node with m_mark := mark }) = some d'
      ∧ d'.Has R (⟨f.isLeft, f.x.withMark mark, f.far⟩ :: ctx) t := by
  obtain ⟨d', hd', h'⟩ := relabel_has (has_cons.mp h) (f.x.withMark mark)
    (fun node => { node with m_mark := mark }) (fun _ _ _ => rfl) rfl
  exact ⟨d', hd', has_cons.mpr h'⟩

/-- A change of the colour of the sibling. -/
theorem markSibling_has (h : d.Has R (f :: ctx) t) (mark : Bool) :
    ∃ d', d.modifyIf f.far.root (fun node => { node with m_mark := mark }) = some d'
      ∧ d'.Has R (⟨f.isLeft, f.x, f.far.setMark mark⟩ :: ctx) t := by
  obtain ⟨d', hd', h'⟩ := setMark_has (flip_has.mp h) mark
  refine ⟨d', hd', flip_has.mpr ?_⟩
  exact h'

/-- The sibling comes up over the parent: `A` is on the side of the cut. -/
theorem rotateSibling_has [Field W]
    (h : d.Has R (⟨b, p, (⟨b, q, B⟩ : PDFFrame T W).plug A⟩ :: ctx) t) :
    ∃ d' sum, d.rotate q.place = some d'
      ∧ d'.Has R (⟨b, p.withSum A t, A⟩ :: ⟨b, { q with sum := sum }, B⟩ :: ctx) t := by
  have hflip := flip_has.mp h
  rw [PDFFrame.plug_flip] at hflip
  obtain ⟨d', sum, hd', h'⟩ := rotate_has hflip
  refine ⟨d', sum, hd', has_cons.mpr (has_cons.mpr ?_)⟩
  rw [PDFFrame.plug_flip, Bool.not_not, PDFFrame.plug_flip (!b), Bool.not_not] at h'
  exact h'

/-- What `lengthen` leaves of the frames above a node. -/
structure Above [Add W] [Zero W] (ctx ctx' : PDFContext T W) : Prop where
  before : ctx'.before = ctx.before
  after : ctx'.after = ctx.after
  parent : ctx'.parent = ctx.parent
  root : ∀ mark, ctx.rootMark mark = false → ctx'.rootMark mark = false
  far : ctx.FarSums → ctx'.FarSums

variable [Field W]

theorem Above.refl (ctx : PDFContext T W) : Above ctx ctx :=
  ⟨rfl, rfl, rfl, fun _ h => h, fun h => h⟩

theorem Above.trans {ctx'' : PDFContext T W} (h : Above ctx ctx') (h' : Above ctx' ctx'') :
    Above ctx ctx'' where
  before := h'.before.trans h.before
  after := h'.after.trans h.after
  parent := h'.parent.trans h.parent
  root := fun mark hroot => h'.root mark (h.root mark hroot)
  far := fun hfar => h'.far (h.far hfar)

/-- A frame whose node has the same item and whose other side has the same items. -/
theorem Above.frame {f' : PDFFrame T W} (hside : f'.isLeft = f.isLeft)
    (hplace : f'.x.place = f.x.place) (hkey : f'.x.key = f.x.key)
    (hweight : f'.x.weight = f.x.weight) (hmark : f.x.mark = false → f'.x.mark = false)
    (hentries : f'.far.entries = f.far.entries) (hsums : f.far.Sums → f'.far.Sums)
    (h : Above ctx ctx') : Above (f :: ctx) (f' :: ctx') where
  before := by
    rw [PDFContext.before, PDFContext.before, h.before, PDFFrame.before, PDFFrame.before, hside,
      hkey, hweight, hentries]
  after := by
    rw [PDFContext.after, PDFContext.after, h.after, PDFFrame.after, PDFFrame.after, hside,
      hkey, hweight, hentries]
  parent := congrArg some hplace
  root := by
    intro mark hroot
    cases ctx with
    | nil =>
      have hctx' : PDFContext.rootMark ctx' false = false := h.root false rfl
      have hnil : ctx'.parent = none := h.parent
      cases ctx' with
      | nil => exact hmark hroot
      | cons g ctx' => exact absurd hnil (by simp [PDFContext.parent])
    | cons g ctx =>
      show PDFContext.rootMark ctx' f'.x.mark = false
      have hroot' := h.root f.x.mark hroot
      cases ctx' with
      | nil => exact absurd h.parent (by simp [PDFContext.parent])
      | cons g' ctx' => exact hroot'
  far := by
    intro hfar
    obtain ⟨hf, hctx⟩ := List.forall_mem_cons.mp hfar
    exact List.forall_mem_cons.mpr ⟨hsums hf, h.far hctx⟩

/-- The frames after the sibling has come up over the parent. -/
theorem Above.rotated {p' q' : PDFLabel T W} {B' : PDFTree T W} (hplace : p'.place = p.place)
    (hpkey : p'.key = p.key) (hpweight : p'.weight = p.weight) (hqkey : q'.key = q.key)
    (hqweight : q'.weight = q.weight) (hqmark : p.mark = false → q'.mark = false)
    (hB : B'.entries = B.entries) (hfar : far.entries = ((⟨b, q, B⟩ : PDFFrame T W).plug A).entries)
    (hsums : far.Sums → A.Sums ∧ B'.Sums) :
    Above (⟨b, p, far⟩ :: ctx) (⟨b, p', A⟩ :: ⟨b, q', B'⟩ :: ctx) where
  before := by
    cases b with
    | true => simp [PDFContext.before, PDFFrame.before]
    | false =>
      simp [PDFContext.before, PDFFrame.before, PDFFrame.plug, PDFTree.entries, hfar, hB, hpkey,
        hpweight, hqkey, hqweight]
  after := by
    cases b with
    | true =>
      simp [PDFContext.after, PDFFrame.after, PDFFrame.plug, PDFTree.entries, hfar, hB, hpkey,
        hpweight, hqkey, hqweight]
    | false => simp [PDFContext.after, PDFFrame.after]
  parent := congrArg some hplace
  root := by
    intro mark hroot
    cases ctx with
    | nil => exact hqmark hroot
    | cons g ctx => exact hroot
  far := by
    intro hall
    obtain ⟨hf, hctx⟩ := List.forall_mem_cons.mp hall
    obtain ⟨hA, hB'⟩ := hsums hf
    exact List.forall_mem_cons.mpr ⟨hA, List.forall_mem_cons.mpr ⟨hB', hctx⟩⟩

/-! ### A black sibling -/

/-- The sibling has a red child only on the side of the cut: that comes up over it. -/
def straighten (d : DiscretePDF T W) (sibling : ℕ) (child : Option ℕ) :
    Option (DiscretePDF T W × ℕ) :=
  child.bind fun child => (d.rotate child).bind fun d =>
    (d.modify sibling PDFNode.markRed).bind fun d => (d.node sibling).bind fun snode =>
      snode.parent.bind fun parent => (d.modify parent PDFNode.markBlack).bind fun d =>
        some (d, parent)

/-- The sibling comes up over the parent, and takes its colour. -/
def raise (d : DiscretePDF T W) (p sibling : ℕ) : Option (DiscretePDF T W × Option ℕ) :=
  (d.rotate sibling).bind fun d => (d.node p).bind fun pnode =>
    (if pnode.m_mark then d.modify sibling PDFNode.markRed else some d).bind fun d =>
      (d.node sibling).bind fun snode => snode.left.bind fun left =>
        (d.modify left PDFNode.markBlack).bind fun d => snode.right.bind fun right =>
          (d.modify right PDFNode.markBlack).bind fun d => some (d, none)

/-- What follows in `lengthenBlack` once the sibling is straight. -/
theorem straighten_bind (d : DiscretePDF T W) (sibling : ℕ) (child : Option ℕ) {α : Type}
    (f : DiscretePDF T W × ℕ → Option α) :
    (d.straighten sibling child).bind f
      = child.bind fun child => (d.rotate child).bind fun d =>
          (d.modify sibling PDFNode.markRed).bind fun d => (d.node sibling).bind fun snode =>
            snode.parent.bind fun parent => (d.modify parent PDFNode.markBlack).bind fun d =>
              f (d, parent) := by
  simp only [straighten, Option.bind_assoc, Option.bind_some]

theorem lengthenBlack_some (d : DiscretePDF T W) (n p sibling : ℕ) :
    d.lengthenBlack n p (some sibling)
      = (d.leftIsBlack sibling).bind fun left => (d.rightIsBlack sibling).bind fun right =>
          (d.node p).bind fun pnode =>
            if left && right then (d.modify sibling PDFNode.markRed).bind fun d =>
              if pnode.m_mark then (d.modify p PDFNode.markBlack).bind fun d => some (d, none)
              else some (d, some p)
            else (d.node sibling).bind fun snode =>
              (if pnode.left = some n ∧ right then d.straighten sibling snode.left
                else if pnode.right = some n ∧ left then d.straighten sibling snode.right
                else some (d, sibling)).bind fun ds => ds.1.raise p ds.2 := by
  have hraise : ∀ (d : DiscretePDF T W) (s : ℕ), d.raise p s
      = (d.rotate s).bind fun d => (d.node p).bind fun pnode =>
          if pnode.m_mark then (d.modify s PDFNode.markRed).bind fun d =>
            (d.node s).bind fun snode => snode.left.bind fun left =>
              (d.modify left PDFNode.markBlack).bind fun d => snode.right.bind fun right =>
                (d.modify right PDFNode.markBlack).bind fun d => some (d, none)
          else (some d).bind fun d => (d.node s).bind fun snode => snode.left.bind fun left =>
              (d.modify left PDFNode.markBlack).bind fun d => snode.right.bind fun right =>
                (d.modify right PDFNode.markBlack).bind fun d => some (d, none) := by
    intro d s
    unfold raise
    refine congrArg (Option.bind _) (funext fun d => congrArg (Option.bind _) (funext fun pnode => ?_))
    split
    next => rfl
    next => rfl
  unfold lengthenBlack
  refine congrArg (Option.bind _) (funext fun left => congrArg (Option.bind _) (funext fun right =>
    congrArg (Option.bind _) (funext fun pnode => ?_)))
  split
  next => rfl
  next =>
    refine congrArg (Option.bind _) (funext fun snode => ?_)
    split
    next =>
      rw [straighten_bind]
      simp only [hraise]
      rfl
    next =>
      split
      next =>
        rw [straighten_bind]
        simp only [hraise]
        rfl
      next =>
        rw [Option.bind_some, hraise]
        rfl

theorem straighten_has {c : PDFLabel T W} {C₁ C₂ : PDFTree T W}
    (h : d.Has R (⟨b, p, (⟨b, s, B⟩ : PDFFrame T W).plug
      ((⟨b, c, C₂⟩ : PDFFrame T W).plug C₁)⟩ :: ctx) t) :
    ∃ d' sum, d.straighten s.place (some c.place) = some (d', c.place)
      ∧ d'.Has R (⟨b, p, (⟨b, { c with mark := false, sum := sum },
        (⟨b, (s.withSum C₂ B).withMark true, B⟩ : PDFFrame T W).plug C₂⟩ : PDFFrame T W).plug C₁⟩
          :: ctx) t := by
  have hs := has_cons.mpr (flip_has.mp h)
  obtain ⟨d₁, sum, hd₁, h₁⟩ := rotate_has hs
  rw [PDFFrame.plug_flip] at h₁
  have hs₁ := has_cons.mpr h₁
  obtain ⟨d₂, hd₂, h₂⟩ := relabel_has hs₁ ((s.withSum C₂ B).withMark true) PDFNode.markRed
    (fun _ _ _ => rfl) rfl
  have hnode := h₂.node
  have hc := has_cons.mp h₂
  rw [PDFFrame.plug_flip, Bool.not_not] at hc
  obtain ⟨d₃, hd₃, h₃⟩ := relabel_has hc { c with mark := false, sum := sum } PDFNode.markBlack
    (fun _ _ _ => rfl) rfl
  refine ⟨d₃, sum, ?_, flip_has.mpr h₃⟩
  have hd₂' : d₁.modify s.place PDFNode.markRed = some d₂ := hd₂
  have hnode' : d₂.node s.place = _ := hnode
  have hd₃' : d₂.modify c.place PDFNode.markBlack = some d₃ := hd₃
  unfold straighten
  rw [Option.bind_some, hd₁, Option.bind_some, hd₂', Option.bind_some, hnode', Option.bind_some]
  show (d₂.modify c.place PDFNode.markBlack).bind _ = _
  rw [hd₃', Option.bind_some]

/-- The sibling comes up: its child on the other side is black then, and so is the parent. -/
theorem raise_has (hB : B ≠ .nil) (h : d.Has R (⟨b, p, (⟨b, q, B⟩ : PDFFrame T W).plug A⟩ :: ctx) t) :
    ∃ d' sum, d.raise p.place q.place = some (d', none)
      ∧ d'.Has R (⟨b, (p.withSum A t).withMark false, A⟩
        :: ⟨b, { q with mark := q.mark || p.mark, sum := sum }, B.setMark false⟩ :: ctx) t := by
  obtain ⟨d₁, sum, hd₁, h₁⟩ := rotateSibling_has h
  have hp₁ := (has_cons.mp h₁).node
  have hp₁' : d₁.node p.place = _ := hp₁
  -- the sibling takes the colour of the parent
  obtain ⟨d₂, hd₂, h₂⟩ : ∃ d₂, (if p.mark then d₁.modify q.place PDFNode.markRed else some d₁)
      = some d₂ ∧ d₂.Has R (⟨b, p.withSum A t, A⟩
        :: ⟨b, { q with mark := q.mark || p.mark, sum := sum }, B⟩ :: ctx) t := by
    cases hp : p.mark with
    | true =>
      obtain ⟨d₂, hd₂, h₂⟩ := markParent_has (has_cons.mp h₁) true
      rw [if_pos rfl, Bool.or_true]
      exact ⟨d₂, hd₂, has_cons.mpr h₂⟩
    | false =>
      rw [if_neg (by simp), Bool.or_false]
      exact ⟨d₁, rfl, h₁⟩
  have hq₂ := (has_cons.mp (has_cons.mp h₂)).node
  have hq₂' : d₂.node q.place = _ := hq₂
  have hmarkB : ∀ {d : DiscretePDF T W} {p' : PDFLabel T W}, d.Has R (⟨b, p', A⟩
      :: ⟨b, { q with mark := q.mark || p.mark, sum := sum }, B⟩ :: ctx) t →
      ∃ d', (B.root.bind fun child => d.modify child PDFNode.markBlack) = some d'
        ∧ d'.Has R (⟨b, p', A⟩
          :: ⟨b, { q with mark := q.mark || p.mark, sum := sum }, B.setMark false⟩ :: ctx) t := by
    intro d p' hd
    obtain ⟨d', hd', h'⟩ := markSibling_has (has_cons.mp hd) false
    refine ⟨d', ?_, has_cons.mpr h'⟩
    cases B with
    | nil => exact absurd rfl hB
    | node x l r => exact hd'
  have hmarkP : ∀ {d : DiscretePDF T W} {B' : PDFTree T W}, d.Has R (⟨b, p.withSum A t, A⟩
      :: ⟨b, { q with mark := q.mark || p.mark, sum := sum }, B'⟩ :: ctx) t →
      ∃ d', d.modify p.place PDFNode.markBlack = some d'
        ∧ d'.Has R (⟨b, (p.withSum A t).withMark false, A⟩
          :: ⟨b, { q with mark := q.mark || p.mark, sum := sum }, B'⟩ :: ctx) t := by
    intro d B' hd
    exact markParent_has hd false
  unfold raise
  rw [hd₁, Option.bind_some, hp₁', Option.bind_some]
  show ∃ d' sum, (if p.mark then d₁.modify q.place PDFNode.markRed else some d₁).bind _ = _ ∧ _
  rw [hd₂, Option.bind_some, hq₂', Option.bind_some]
  rw [PDFFrame.root_plug]
  cases b with
  | true =>
    obtain ⟨d₃, hd₃, h₃⟩ := hmarkP h₂
    obtain ⟨d₄, hd₄, h₄⟩ := hmarkB h₃
    refine ⟨d₄, sum, ?_, h₄⟩
    show ((d₂.modify p.place PDFNode.markBlack).bind fun d =>
      B.root.bind fun right => (d.modify right PDFNode.markBlack).bind fun d => some (d, none)) = _
    rw [hd₃, Option.bind_some, ← Option.bind_assoc, hd₄, Option.bind_some]
  | false =>
    obtain ⟨d₃, hd₃, h₃⟩ := hmarkB h₂
    obtain ⟨d₄, hd₄, h₄⟩ := hmarkP h₃
    refine ⟨d₄, sum, ?_, h₄⟩
    show (B.root.bind fun left => (d₂.modify left PDFNode.markBlack).bind fun d =>
      (d.modify p.place PDFNode.markBlack).bind fun d => some (d, none)) = _
    rw [← Option.bind_assoc, hd₃, Option.bind_some, hd₄, Option.bind_some]

omit [Field W] in
/-- A node with one child on a given side. -/
theorem exists_plug (b : Bool) (h : t ≠ .nil) :
    ∃ (x : PDFLabel T W) (A B : PDFTree T W), t = (⟨b, x, B⟩ : PDFFrame T W).plug A := by
  cases t with
  | nil => exact absurd rfl h
  | node x l r =>
    cases b with
    | true => exact ⟨x, l, r, rfl⟩
    | false => exact ⟨x, r, l, rfl⟩

omit [Field W] in
theorem ne_nil_of_mark (h : t.mark = true) : t ≠ .nil := by
  rintro rfl
  exact absurd h (by simp [PDFTree.mark])

theorem sums_of_plug (h : ((⟨b, x, B⟩ : PDFFrame T W).plug A).Sums) : A.Sums ∧ B.Sums := by
  cases b with
  | true => exact h.2
  | false => exact h.2.symm

/-- The sibling with a red child gets one on the other side from the cut. -/
theorem level_has (h : d.Has R (⟨b, p, (⟨b, s, B⟩ : PDFFrame T W).plug A⟩ :: ctx) t)
    (hred : A.mark = true ∨ B.mark = true) (hblack : p.mark = false → s.mark = false) :
    ∃ d' q A' B', (if B.mark = false then d.straighten s.place A.root else some (d, s.place))
        = some (d', PDFLabel.place q)
      ∧ d'.Has R (⟨b, p, (⟨b, q, B'⟩ : PDFFrame T W).plug A'⟩ :: ctx) t ∧ B' ≠ .nil
      ∧ (p.mark = false → q.mark = false)
      ∧ ((⟨b, s, B⟩ : PDFFrame T W).plug A).entries = ((⟨b, q, B'⟩ : PDFFrame T W).plug A').entries
      ∧ (A.Sums → B.Sums → A'.Sums ∧ B'.Sums) := by
  cases hB : B.mark with
  | true =>
    rw [if_neg (by simp)]
    exact ⟨d, s, A, B, rfl, h, ne_nil_of_mark hB, hblack, rfl, fun hA hB => ⟨hA, hB⟩⟩
  | false =>
    rw [if_pos rfl]
    have hA : A.mark = true := by
      rcases hred with hA | hB'
      · exact hA
      · exact absurd (hB.symm.trans hB') (by simp)
    obtain ⟨c, C₁, C₂, rfl⟩ := exists_plug b (ne_nil_of_mark hA)
    obtain ⟨d', sum, hd', h'⟩ := straighten_has h
    refine ⟨d', { c with mark := false, sum := sum }, C₁, _, ?_, h', ?_, fun _ => rfl, ?_, ?_⟩
    · rw [PDFFrame.root_plug]
      exact hd'
    · intro hnil
      have hroot := PDFFrame.root_plug ⟨b, (s.withSum C₂ B).withMark true, B⟩ C₂
      rw [hnil] at hroot
      exact absurd hroot (by simp [PDFTree.root])
    · rw [PDFFrame.entries_plug, PDFFrame.entries_plug, PDFFrame.entries_plug]
      cases b with
      | true =>
        simp [PDFFrame.before, PDFFrame.after, PDFFrame.plug, PDFTree.entries, PDFLabel.withMark,
          PDFLabel.withSum]
      | false =>
        simp [PDFFrame.before, PDFFrame.after, PDFFrame.plug, PDFTree.entries, PDFLabel.withMark,
          PDFLabel.withSum]
    · intro hA hB
      obtain ⟨hC₁, hC₂⟩ := sums_of_plug hA
      exact ⟨hC₁, sums_plug b (s.withMark true) hC₂ hB⟩

/-- `lengthen` where the sibling is black, or the parent red: it is done, or goes on with the
parent, whose other side has lost a black node then. -/
theorem lengthenBlack_has {n : ℕ} (h : d.Has R (f :: ctx) t) (hn : t.root = some n)
    (hblack : f.x.mark = false → f.far.mark = false) :
    ∃ d' next, d.lengthenBlack n f.x.place f.far.root = some (d', next)
      ∧ ((next = none ∧ ∃ ctx', d'.Has R ctx' t ∧ Above (f :: ctx) ctx')
        ∨ (next = some f.x.place ∧ ∃ far', d'.Has R (⟨f.isLeft, f.x, far'⟩ :: ctx) t
          ∧ far'.entries = f.far.entries ∧ (f.far.Sums → far'.Sums))) := by
  obtain ⟨pnode, hpnode, hpmark, -, hpleft, hpright⟩ := h.side hn
  obtain ⟨b, p, far⟩ := f
  cases far with
  | nil => exact ⟨d, some p.place, rfl, .inr ⟨rfl, .nil, h, rfl, fun h => h⟩⟩
  | node s sl sr =>
    have hsibling : d.Has R (⟨!b, p, t⟩ :: ctx) (.node s sl sr) := flip_has.mp h
    obtain ⟨hleft, hright⟩ := isBlack_children hsibling
    have hsnode := hsibling.node_eq
    have hpnode' : d.node p.place = some pnode := hpnode
    show ∃ d' next, d.lengthenBlack n p.place (some s.place) = some (d', next) ∧ _
    rw [lengthenBlack_some, hleft, Option.bind_some, hright, Option.bind_some, hpnode',
      Option.bind_some]
    cases hboth : (!sl.mark) && (!sr.mark) with
    | true =>
      rw [if_pos rfl]
      obtain ⟨d₁, hd₁, h₁⟩ := markSibling_has h true
      have hd₁' : d.modify s.place PDFNode.markRed = some d₁ := hd₁
      rw [hd₁', Option.bind_some, hpmark]
      have hentries := PDFTree.entries_setMark (PDFTree.node s sl sr) true
      cases hp : p.mark with
      | true =>
        obtain ⟨d₂, hd₂, h₂⟩ := markParent_has h₁ false
        have hd₂' : d₁.modify p.place PDFNode.markBlack = some d₂ := hd₂
        rw [if_pos rfl, hd₂', Option.bind_some]
        refine ⟨d₂, none, rfl, .inl ⟨rfl, _, h₂, ?_⟩⟩
        exact Above.frame rfl rfl rfl rfl (fun _ => rfl) hentries
          (fun hs => PDFTree.sums_setMark hs true) (Above.refl ctx)
      | false =>
        rw [if_neg (by simp)]
        exact ⟨d₁, some p.place, rfl,
          .inr ⟨rfl, _, h₁, hentries, fun hs => PDFTree.sums_setMark hs true⟩⟩
    | false =>
      rw [if_neg (by simp), hsnode, Option.bind_some]
      -- one child of the sibling is red: `A` is the one on the side of the cut
      obtain ⟨A, B, hplug, hchoice, hred⟩ : ∃ A B, PDFTree.node s sl sr
            = (⟨b, s, B⟩ : PDFFrame T W).plug A
          ∧ (if pnode.left = some n ∧ (!sr.mark) = true then d.straighten s.place sl.root
              else if pnode.right = some n ∧ (!sl.mark) = true then d.straighten s.place sr.root
              else some (d, s.place))
            = (if B.mark = false then d.straighten s.place A.root else some (d, s.place))
          ∧ (A.mark = true ∨ B.mark = true) := by
        cases b with
        | true =>
          have hl : pnode.left = some n := hpleft.mpr rfl
          have hr : ¬pnode.right = some n := fun h => absurd (hpright.mp h) (by simp)
          refine ⟨sl, sr, rfl, ?_, ?_⟩
          · simp [hl, hr]
          · cases hl : sl.mark <;> cases hr : sr.mark <;> simp [hl, hr] at hboth ⊢
        | false =>
          have hl : ¬pnode.left = some n := fun h => absurd (hpleft.mp h) (by simp)
          have hr : pnode.right = some n := hpright.mpr rfl
          refine ⟨sr, sl, rfl, ?_, ?_⟩
          · simp [hl, hr]
          · cases hl : sl.mark <;> cases hr : sr.mark <;> simp [hl, hr] at hboth ⊢
      rw [hplug] at h
      obtain ⟨d₁, q, A', B', hd₁, h₁, hB', hq, hentries, hsums⟩ := level_has h hred hblack
      obtain ⟨d₂, sum, hd₂, h₂⟩ := raise_has hB' h₁
      dsimp only
      rw [hchoice, hd₁, Option.bind_some, hd₂]
      refine ⟨d₂, none, rfl, .inl ⟨rfl, _, h₂, ?_⟩⟩
      have hfar : (PDFTree.node s sl sr).entries
          = ((⟨b, q, B'⟩ : PDFFrame T W).plug A').entries := by
        rw [hplug, hentries]
      refine Above.rotated (q := q) rfl rfl rfl rfl rfl ?_ (PDFTree.entries_setMark B' false) hfar ?_
      · intro hp
        show (q.mark || p.mark) = false
        rw [hq hp, hp]
        rfl
      · intro hs
        rw [hplug] at hs
        obtain ⟨hA, hB⟩ := sums_of_plug hs
        obtain ⟨hA', hB'⟩ := hsums hA hB
        exact ⟨hA', PDFTree.sums_setMark hB' false⟩

/-- How many calls of itself `lengthen` needs: a red node ends it. -/
def lengthenSteps (ctx : PDFContext T W) (t : PDFTree T W) : ℕ :=
  if t.mark then 1 else ctx.length + 2

omit [Field W] in
theorem lengthenSteps_pos (ctx : PDFContext T W) (t : PDFTree T W) : 0 < lengthenSteps ctx t := by
  unfold lengthenSteps
  split <;> omega

omit [Field W] in
theorem sibling_has (h : d.Has R (f :: ctx) (.node x l r)) :
    d.sibling x.place = some f.far.root := by
  obtain ⟨pnode, hpnode, -, -, hpleft, -⟩ := h.side rfl
  have hcell := (has_cons.mp h).node
  rw [hpnode] at hcell
  obtain rfl := Option.some.inj hcell
  unfold sibling
  rw [h.node_eq]
  show ((d.node f.x.place).bind _) = _
  rw [hpnode, Option.bind_some]
  obtain ⟨b, p, far⟩ := f
  cases b with
  | true => exact congrArg some (if_pos (hpleft.mpr rfl))
  | false => exact congrArg some (if_neg fun h => absurd (hpleft.mp h) (by simp))

/-- A call of `lengthen` below a parent, with the sibling that it finds. -/
theorem lengthenStep_cons (h : d.Has R (f :: ctx) (.node x l r)) (hx : x.mark = false) :
    d.lengthenStep x.place
      = if f.far.mark then (d.modify f.x.place PDFNode.markRed).bind fun d =>
          f.far.root.bind fun s => (d.modify s PDFNode.markBlack).bind fun d =>
            (d.rotate s).bind fun d => (d.sibling x.place).bind fun sibling =>
              d.lengthenBlack x.place f.x.place sibling
        else d.lengthenBlack x.place f.x.place f.far.root := by
  have hsibling := sibling_has h
  have hfar : d.Has R (⟨!f.isLeft, f.x, .node x l r⟩ :: ctx) f.far := flip_has.mp h
  unfold lengthenStep
  rw [h.node_eq, Option.bind_eq_bind, Option.bind_some]
  show (if x.mark then _ else _) = _
  rw [if_neg (by simp [hx])]
  show (d.sibling x.place).bind _ = _
  rw [hsibling, Option.bind_some]
  cases hroot : f.far with
  | nil => rfl
  | node s sl sr =>
    rw [hroot] at hfar
    have hblack : d.isBlack s.place = some (!s.mark) := by
      unfold isBlack
      rw [hfar.node_eq]
      rfl
    show (d.isBlack s.place).bind _ = _
    rw [hblack, Option.bind_some]
    show (if (!s.mark) = true then _ else _) = if s.mark = true then _ else _
    cases s.mark with
    | true => rfl
    | false => rfl

/-- One call of `lengthen` is done, or goes on with the parent. -/
theorem lengthenStep_has (h : d.Has R ctx (.node x l r)) :
    ∃ d' next, d.lengthenStep x.place = some (d', next)
      ∧ ((next = none ∧ ∃ ctx' mark, d'.Has R ctx' (.node (x.withMark mark) l r)
          ∧ Above ctx ctx' ∧ (x.mark = true → ctx' = ctx ∧ mark = false)
          ∧ (x.mark = false → mark = false))
        ∨ (x.mark = false ∧ ∃ f ctx', next = some (PDFLabel.place f.x)
          ∧ d'.Has R (f :: ctx') (.node x l r)
          ∧ Above ctx (f :: ctx') ∧ (f.x.mark = true ∨ ctx'.length + 1 ≤ ctx.length))) := by
  have hnode := h.node_eq
  cases hx : x.mark with
  | true =>
    obtain ⟨d₁, hd₁, h₁⟩ := withMark_has h false
    refine ⟨d₁, none, ?_, .inl ⟨rfl, ctx, false, h₁, Above.refl ctx, fun _ => ⟨rfl, rfl⟩,
      fun _ => rfl⟩⟩
    have hd₁' : d.modify x.place PDFNode.markBlack = some d₁ := hd₁
    unfold lengthenStep
    rw [hnode, Option.bind_eq_bind, Option.bind_some]
    show (if x.mark then _ else _) = _
    rw [if_pos hx, hd₁']
    rfl
  | false =>
    have hsame : x.withMark false = x := by
      rw [← hx]
      rfl
    cases ctx with
    | nil =>
      refine ⟨d, none, ?_, .inl ⟨rfl, [], false, hsame ▸ h, Above.refl [],
        fun h => absurd h (by simp), fun _ => rfl⟩⟩
      unfold lengthenStep
      rw [hnode, Option.bind_eq_bind, Option.bind_some]
      show (if x.mark then _ else _) = _
      rw [if_neg (by simp [hx])]
      rfl
    | cons f ctx =>
      rw [lengthenStep_cons h hx]
      cases hfar : f.far.mark with
      | false =>
        rw [if_neg (by simp)]
        obtain ⟨d₁, next, hd₁, hend | hgo⟩ := lengthenBlack_has h rfl fun _ => hfar
        · obtain ⟨rfl, ctx', h₁, habove⟩ := hend
          exact ⟨d₁, none, hd₁, .inl ⟨rfl, ctx', false, hsame ▸ h₁, habove,
            fun h => absurd h (by simp), fun _ => rfl⟩⟩
        · obtain ⟨rfl, far', h₁, hentries, hsums⟩ := hgo
          refine ⟨d₁, _, hd₁, .inr ⟨rfl, ⟨f.isLeft, f.x, far'⟩, ctx, rfl, h₁, ?_,
            .inr (Nat.le_refl _)⟩⟩
          exact Above.frame rfl rfl rfl rfl (fun h => h) hentries hsums (Above.refl ctx)
      | true =>
        -- a red sibling comes up first, and the parent becomes red
        rw [if_pos rfl]
        obtain ⟨s, A, B, hplug⟩ := exists_plug f.isLeft (ne_nil_of_mark hfar)
        obtain ⟨d₁, hd₁, h₁⟩ := markParent_has h true
        obtain ⟨d₂, hd₂, h₂⟩ := markSibling_has h₁ false
        have hs : f.far.root = some s.place := by rw [hplug, PDFFrame.root_plug]
        have hd₁' : d.modify f.x.place PDFNode.markRed = some d₁ := hd₁
        have hd₂' : d₁.modify s.place PDFNode.markBlack = some d₂ := by
          dsimp only at hd₂
          rw [hs] at hd₂
          exact hd₂
        have hblack : f.far.setMark false
            = (⟨f.isLeft, s.withMark false, B⟩ : PDFFrame T W).plug A := by
          rw [hplug, PDFFrame.plug, PDFFrame.plug]
          cases f.isLeft with
          | true => rfl
          | false => rfl
        rw [hblack] at h₂
        obtain ⟨d₃, sum, hd₃, h₃⟩ := rotateSibling_has h₂
        have hd₃' : d₂.rotate s.place = some d₃ := hd₃
        have hsibling := sibling_has h₃
        rw [hd₁', Option.bind_some, hs, Option.bind_some, hd₂', Option.bind_some, hd₃',
          Option.bind_some, hsibling, Option.bind_some]
        have hrotated : Above (f :: ctx) (⟨f.isLeft, (f.x.withMark true).withSum A (.node x l r), A⟩
            :: ⟨f.isLeft, { s.withMark false with sum := sum }, B⟩ :: ctx) := by
          refine Above.rotated (q := s) rfl rfl rfl rfl rfl (fun _ => rfl) rfl ?_ ?_
          · rw [hplug]
          · intro hsums
            rw [hplug] at hsums
            exact sums_of_plug hsums
        obtain ⟨d₄, next, hd₄, hend | hgo⟩ := lengthenBlack_has h₃ rfl fun h => absurd h (by simp
          [PDFLabel.withSum, PDFLabel.withMark])
        · obtain ⟨rfl, ctx', h₄, habove⟩ := hend
          exact ⟨d₄, none, hd₄, .inl ⟨rfl, ctx', false, hsame ▸ h₄, hrotated.trans habove,
            fun h => absurd h (by simp), fun _ => rfl⟩⟩
        · obtain ⟨rfl, far', h₄, hentries, hsums⟩ := hgo
          refine ⟨d₄, _, hd₄, .inr ⟨rfl, ⟨f.isLeft, (f.x.withMark true).withSum A (.node x l r), far'⟩,
            _, rfl, h₄, ?_, .inl rfl⟩⟩
          exact hrotated.trans (Above.frame rfl rfl rfl rfl (fun h => h) hentries hsums
            (Above.refl _))

/-- `lengthen` ends, and leaves the items and the sums beside the way to the root. A red node
only becomes black. -/
theorem lengthen_has {fuel : ℕ} (h : d.Has R ctx (.node x l r))
    (hfuel : lengthenSteps ctx (.node x l r) ≤ fuel) :
    ∃ d' ctx' mark, lengthen fuel d x.place = some d'
      ∧ d'.Has R ctx' (.node (x.withMark mark) l r) ∧ Above ctx ctx'
      ∧ (x.mark = true → ctx' = ctx ∧ mark = false) ∧ (x.mark = false → mark = false) := by
  induction fuel generalizing d ctx x l r with
  | zero =>
    have hpos := lengthenSteps_pos ctx (.node x l r)
    omega
  | succ fuel ih =>
    obtain ⟨d₁, next, hd₁, hend | hgo⟩ := lengthenStep_has h
    · obtain ⟨rfl, ctx', mark, h₁, habove, hred, hblack⟩ := hend
      refine ⟨d₁, ctx', mark, ?_, h₁, habove, hred, hblack⟩
      rw [lengthen, hd₁]
      rfl
    · obtain ⟨hx, f, ctx', rfl, h₁, habove, hless⟩ := hgo
      have hsame : x.withMark false = x := by
        rw [← hx]
        rfl
      obtain ⟨y, yl, yr, hplug, hy⟩ : ∃ y yl yr, f.plug (.node x l r) = .node y yl yr ∧ y = f.x := by
        rw [PDFFrame.plug]
        cases f.isLeft with
        | true => exact ⟨_, _, _, rfl, rfl⟩
        | false => exact ⟨_, _, _, rfl, rfl⟩
      have hremark : ∀ mark, PDFTree.node (y.withMark mark) yl yr
          = (⟨f.isLeft, f.x.withMark mark, f.far⟩ : PDFFrame T W).plug (.node x l r) := by
        intro mark
        rw [PDFFrame.plug] at hplug ⊢
        dsimp only
        cases hside : f.isLeft with
        | true =>
          rw [hside, if_pos rfl] at hplug
          cases hplug
          rfl
        | false =>
          rw [hside, if_neg (by simp)] at hplug
          cases hplug
          rfl
      have hparent := has_cons.mp h₁
      rw [hplug] at hparent
      have hsteps : lengthenSteps ctx' (.node y yl yr) ≤ fuel := by
        unfold lengthenSteps at hfuel ⊢
        have htop : (PDFTree.node x l r).mark = false := hx
        have hymark : (PDFTree.node y yl yr).mark = f.x.mark := congrArg PDFLabel.mark hy
        rw [htop, if_neg (by simp)] at hfuel
        rw [hymark]
        rcases hless with hred | hlength
        · rw [if_pos hred]
          omega
        · split <;> omega
      obtain ⟨d₂, ctx'', mark, hd₂, h₂, habove₂, -, hkeep⟩ := ih hparent hsteps
      rw [hremark] at h₂
      refine ⟨d₂, ⟨f.isLeft, f.x.withMark mark, f.far⟩ :: ctx'', false, ?_, ?_, ?_, ?_, fun _ => rfl⟩
      · rw [lengthen, hd₁, ← hd₂, hy]
        rfl
      · rw [hsame]
        exact has_cons.mpr h₂
      · refine habove.trans (Above.frame rfl rfl rfl rfl ?_ rfl (fun h => h) habove₂)
        intro hmark
        exact hkeep (by rw [hy]; exact hmark)
      · intro hred
        exact absurd (hx.symm.trans hred) (by simp)

end Lengthen

/-! ## The two halves of `remove` -/

section Remove

variable [Field W] [LinearOrder T] {d : DiscretePDF T W} {R : Multiset (ℕ × PDFNode T W)}
  {ctx ctx' : PDFContext T W} {t : PDFTree T W} {item : T}

/-- The first half of `remove`: the pointer to the node that is going to be taken out. -/
def exchangeMax (d : DiscretePDF T W) (item : T) : Option (DiscretePDF T W × Place) :=
  (d.lookup item).bind fun np => (d.load np).bind fun n => n.bind fun n =>
    (d.node n).bind fun node =>
      match node.left with
      | none => some (d, np)
      | some _ => (d.leftMaxLoop d.fuel (.left n)).bind fun leftMaxp =>
          (d.load leftMaxp).bind fun leftMax => leftMax.bind fun leftMax =>
            (d.node leftMax).bind fun leftMax =>
              (d.modify n fun node =>
                { node with key := leftMax.key, weight := leftMax.weight }).bind fun d =>
                  some (d, leftMaxp)

/-- The node that `remove` takes out for an item: the greatest on the left of the item. -/
def victim (d : DiscretePDF T W) (item : T) : Option ℕ :=
  (d.lookup item).bind fun np => (d.load np).bind fun n => n.bind fun n =>
    (d.node n).bind fun node =>
      match node.left with
      | none => some n
      | some _ => (d.leftMaxLoop d.fuel (.left n)).bind fun leftMaxp =>
          (d.load leftMaxp).bind fun leftMax => leftMax

/-- The second half: the node that the pointer is to is taken out. -/
def takeOut (d : DiscretePDF T W) (np : Place) : Option (DiscretePDF T W) :=
  (d.load np).bind fun n => n.bind fun n => (d.node n).bind fun node =>
    (d.store np (if node.left = none then node.right else node.left)).bind fun d =>
      (match if node.left = none then node.right else node.left with
        | none => some d
        | some child =>
            (d.modify child fun child => { child with parent := node.parent }).bind fun d =>
              if node.m_mark then some d else lengthen d.fuel d child).bind fun d =>
        (d.propogateSumsUp node.parent).bind fun d => some { d with heap := d.heap.free n }

omit [LinearOrder T] in
/-- The second half, with what follows each of its cases. -/
theorem takeOut_eq (d : DiscretePDF T W) (np : Place) :
    d.takeOut np = (d.load np).bind fun n => n.bind fun n => (d.node n).bind fun node =>
      (d.store np (if node.left = none then node.right else node.left)).bind fun d =>
        match if node.left = none then node.right else node.left with
        | none => (d.propogateSumsUp node.parent).bind fun d => some { d with heap := d.heap.free n }
        | some child =>
            (d.modify child fun child => { child with parent := node.parent }).bind fun d =>
              if node.m_mark then
                (d.propogateSumsUp node.parent).bind fun d => some { d with heap := d.heap.free n }
              else (lengthen d.fuel d child).bind fun d =>
                (d.propogateSumsUp node.parent).bind fun d =>
                  some { d with heap := d.heap.free n } := by
  unfold takeOut
  refine congrArg (Option.bind _) (funext fun n => congrArg (Option.bind _) (funext fun n =>
    congrArg (Option.bind _) (funext fun node => congrArg (Option.bind _) (funext fun d => ?_))))
  generalize (if node.left = none then node.right else node.left) = child
  cases child with
  | none => rfl
  | some child =>
    dsimp only
    rw [Option.bind_assoc]
    refine congrArg (Option.bind _) (funext fun d => ?_)
    split
    next => rfl
    next => rfl

theorem remove_eq (d : DiscretePDF T W) (item : T) :
    d.remove item = (d.exchangeMax item).bind fun dnp => dnp.1.takeOut dnp.2 := by
  unfold remove exchangeMax
  rw [Option.bind_assoc]
  refine congrArg (Option.bind _) (funext fun np => ?_)
  rw [Option.bind_assoc]
  refine congrArg (Option.bind _) (funext fun n => ?_)
  rw [Option.bind_assoc]
  refine congrArg (Option.bind _) (funext fun n => ?_)
  rw [Option.bind_assoc]
  refine congrArg (Option.bind _) (funext fun node => ?_)
  cases node.left with
  | none =>
    dsimp only
    rw [Option.bind_some, takeOut_eq]
    rfl
  | some left =>
    dsimp only
    rw [Option.bind_assoc]
    refine congrArg (Option.bind _) (funext fun leftMaxp => ?_)
    rw [Option.bind_assoc]
    refine congrArg (Option.bind _) (funext fun leftMax => ?_)
    rw [Option.bind_assoc]
    refine congrArg (Option.bind _) (funext fun leftMax => ?_)
    rw [Option.bind_assoc]
    refine congrArg (Option.bind _) (funext fun leftMax => ?_)
    rw [Option.bind_assoc]
    refine congrArg (Option.bind _) (funext fun d => ?_)
    rw [Option.bind_some, takeOut_eq]
    rfl

omit [LinearOrder T] in
/-- The sums beside the way to a cut. -/
theorem farSums_of_plug (h : (ctx.plug t).Sums) : ctx.FarSums ∧ t.Sums := by
  induction ctx generalizing t with
  | nil => exact ⟨fun f hf => absurd hf List.not_mem_nil, h⟩
  | cons f ctx ih =>
    obtain ⟨hctx, hf⟩ := ih h
    obtain ⟨ht, hfar⟩ := sums_of_plug hf
    exact ⟨List.forall_mem_cons.mpr ⟨hfar, hctx⟩, ht⟩

omit [Field W] [LinearOrder T] in
theorem root_eq_none_iff {t : PDFTree T W} : t.root = none ↔ t = .nil := by
  cases t with
  | nil => exact iff_of_true rfl rfl
  | node x l r => exact iff_of_false (by simp [PDFTree.root]) (by simp)

/-- Without one of the entries. -/
def Without (item : T) (entries entries' : List (T × W)) : Prop :=
  ∃ before weight after, entries = before ++ (item, weight) :: after ∧ entries' = before ++ after

omit [LinearOrder T] in
/-- The second half succeeds. The node with one child at most, or none, is taken out; its
child comes up, and the frames above change only where a black node had a black child. -/
theorem takeOut_has {y : PDFLabel T W} {a b c : PDFTree T W} (h : d.Has R ctx (.node y a b))
    (hc : (a = .nil ∧ c = b) ∨ (b = .nil ∧ c = a)) (hctx : ctx.FarSums) (hsums : c.Sums)
    (hroot : ctx.rootMark y.mark = false) :
    ∃ d' t' ctx' mark, d.takeOut ctx.place = some d' ∧ d'.Has R [] t' ∧ t'.Sums
      ∧ t'.mark = false ∧ t'.bare = (PDFContext.plug ctx' (c.setMark mark)).bare
      ∧ Above ctx ctx'
      ∧ (y.mark = true ∨ c = .nil → ctx' = ctx ∧ mark = c.mark)
      ∧ (y.mark = false → c.mark = true → ctx' = ctx ∧ mark = false) := by
  obtain ⟨d₁, d₂, cell, hd₁, hd₂, hcell, h₂⟩ := unlink_has h hc
  have hchild : (if a.root = none then b.root else a.root) = c.root := by
    rcases hc with ⟨rfl, rfl⟩ | ⟨rfl, rfl⟩
    · exact if_pos rfl
    · cases c with
      | nil => rfl
      | node x l r => exact if_neg (by simp [PDFTree.root])
  -- the child, and `lengthen`
  obtain ⟨d₃, ctx', mark, hd₃, h₃, habove, hkeep, hred, hblack⟩ : ∃ d₃ ctx' mark,
      (match c.root with
        | none => some d₁
        | some child =>
            (d₁.modify child fun child => { child with parent := ctx.parent }).bind fun d =>
              if y.mark then some d else lengthen d.fuel d child) = some d₃
      ∧ d₃.Has (cell ::ₘ R) ctx' (c.setMark mark) ∧ Above ctx ctx'
      ∧ (y.mark = true ∨ c = .nil → ctx' = ctx ∧ mark = c.mark)
      ∧ (y.mark = false → c.mark = true → ctx' = ctx ∧ mark = false)
      ∧ (y.mark = false → (c.setMark mark).mark = false) := by
    cases c with
    | nil =>
      have heq : d₁ = d₂ := Option.some.inj hd₂
      exact ⟨d₂, ctx, false, congrArg some heq, h₂, Above.refl ctx, fun _ => ⟨rfl, rfl⟩,
        fun _ h => absurd h (by simp [PDFTree.mark]), fun _ => rfl⟩
    | node x l r =>
      have hd₂' : d₁.modify x.place (fun child => { child with parent := ctx.parent }) = some d₂ :=
        hd₂
      show ∃ d₃ ctx' mark, ((d₁.modify x.place fun child =>
        { child with parent := ctx.parent }).bind fun d =>
          if y.mark then some d else lengthen d.fuel d x.place) = some d₃ ∧ _
      rw [hd₂', Option.bind_some]
      cases hy : y.mark with
      | true =>
        rw [if_pos rfl]
        refine ⟨d₂, ctx, x.mark, rfl, h₂, Above.refl ctx, fun _ => ⟨rfl, rfl⟩, ?_, ?_⟩
        · intro h
          exact absurd h (by simp)
        · intro h
          exact absurd h (by simp)
      | false =>
        rw [if_neg (by simp)]
        have hfuel : lengthenSteps ctx (.node x l r) ≤ d₂.fuel := by
          have hlength := h₂.length_le
          unfold lengthenSteps fuel
          split <;> omega
        obtain ⟨d₃, ctx', mark, hd₃, h₃, habove, hred, hblack⟩ := lengthen_has h₂ hfuel
        refine ⟨d₃, ctx', mark, hd₃, h₃, habove, ?_, fun _ h => hred h, ?_⟩
        · rintro (h | h)
          · exact absurd h (by simp)
          · exact absurd h (by simp)
        · intro _
          show mark = false
          cases hx : x.mark with
          | true => exact (hred hx).2
          | false => exact hblack hx
  have hc₃ : (c.setMark mark).Sums := PDFTree.sums_setMark hsums mark
  -- the sums on the way up
  obtain ⟨d₄, t', hd₄, h₄, hsums₄, hmark₄, hbare⟩ : ∃ d₄ t',
      d₃.propogateSumsUp ctx.parent = some d₄ ∧ d₄.Has (cell ::ₘ R) [] t' ∧ t'.Sums
      ∧ t'.mark = false ∧ t'.bare = (PDFContext.plug ctx' (c.setMark mark)).bare := by
    have hmark : (PDFContext.plug ctx' (c.setMark mark)).mark = false := by
      rw [PDFContext.mark_plug]
      cases ctx with
      | nil =>
        have hy : y.mark = false := hroot
        have hctx' : ctx'.parent = none := habove.parent
        cases ctx' with
        | nil => exact hblack hy
        | cons f ctx' => exact absurd hctx' (by simp [PDFContext.parent])
      | cons f ctx =>
        have hroot' := habove.root y.mark hroot
        cases ctx' with
        | nil => exact absurd habove.parent (by simp [PDFContext.parent])
        | cons f' ctx' => exact hroot'
    cases ctx with
    | nil =>
      have hctx' : ctx'.parent = none := habove.parent
      cases ctx' with
      | nil => exact ⟨d₃, c.setMark mark, rfl, h₃, hc₃, hmark, rfl⟩
      | cons f ctx' => exact absurd hctx' (by simp [PDFContext.parent])
    | cons f ctx =>
      cases ctx' with
      | nil => exact absurd habove.parent (by simp [PDFContext.parent])
      | cons f' ctx' =>
        have hplace : f'.x.place = f.x.place := Option.some.inj habove.parent
        obtain ⟨hfar, hctx'⟩ := List.forall_mem_cons.mp (habove.far hctx)
        obtain ⟨d₄, t', hd₄, h₄, hsums₄, hbare⟩ :=
          propogateSumsUp_has (has_cons.mp h₃) hc₃ hfar hctx'
        refine ⟨d₄, t', ?_, h₄, hsums₄, ?_, hbare⟩
        · rw [PDFContext.parent, ← hplace]
          exact hd₄
        · rw [← PDFTree.mark_bare, hbare, PDFTree.mark_bare]
          exact hmark
  refine ⟨{ d₄ with heap := d₄.heap.free y.place }, t', ctx', mark, ?_, ?_, hsums₄, hmark₄, hbare,
    habove, hkeep, hred⟩
  · unfold takeOut
    rw [load_place h, Option.bind_some]
    show (d.node y.place).bind _ = _
    rw [h.node_eq, Option.bind_some]
    dsimp only
    rw [hchild, hd₁, Option.bind_some, hd₃, Option.bind_some, hd₄, Option.bind_some]
  · refine ⟨h₄.m_root, ?_⟩
    obtain ⟨p, pnode⟩ := cell
    obtain rfl : p = y.place := hcell
    have hholds : d₄.heap.Holds ((y.place, pnode) ::ₘ (t'.cells none
        + PDFContext.cells ([] : PDFContext T W) t'.root + R)) := by
      refine h₄.holds.congr ?_
      rw [Multiset.add_cons]
      rfl
    exact hholds.free

/-- The first half succeeds for an item in the tree. The pointer is to a node with one child at
most; without that node the items are those that stay. -/
theorem exchangeMax_has (h : d.Has R [] t) (hsums : t.Sums) (hroot : t.mark = false)
    (hsorted : Increasing t.entries) (hpresent : ∃ e ∈ t.entries, e.1 = item) :
    ∃ d' ctx y a b, d.exchangeMax item = some (d', PDFContext.place ctx)
      ∧ d'.Has R ctx (.node y a b) ∧ (a = .nil ∨ b = .nil)
      ∧ d.victim item = some y.place
      ∧ d.node y.place = some ⟨y.mark, PDFContext.parent ctx, a.root, b.root, y.key, y.weight, y.sum⟩
      ∧ (PDFContext.plug ctx (.node y a b)).skeleton = t.skeleton
      ∧ Without item t.entries (ctx.before ++ (a.entries ++ b.entries) ++ ctx.after)
      ∧ ctx.FarSums ∧ a.Sums ∧ b.Sums ∧ ctx.rootMark y.mark = false := by
  obtain ⟨ctx₀, t₀, hlookup, hplug, hway, hfound⟩ := lookup_has h hroot hsorted
  rcases hfound with rfl | ⟨x, l, r, rfl, hkey⟩
  · -- the item is in the tree
    exfalso
    obtain ⟨e, he, heq⟩ := hpresent
    rw [← hway.entries, PDFContext.entries_plug, PDFTree.entries, List.append_nil] at he
    rcases List.mem_append.mp he with he | he
    · exact absurd heq (hway.fits.before e he).ne
    · exact absurd heq (hway.fits.after e he).ne'
  · have h₀ : d.Has R ctx₀ (.node x l r) := h.of_plug_eq hplug
    have hentries : t.entries = ctx₀.before ++ (l.entries ++ (x.key, x.weight) :: r.entries)
        ++ ctx₀.after := by
      rw [← hplug, PDFContext.entries_plug, PDFTree.entries]
    rw [← hplug] at hsums
    obtain ⟨hctx₀, -, hl, hr⟩ := farSums_of_plug hsums
    have hnode := h₀.node_eq
    unfold exchangeMax victim
    have hload : d.load ctx₀.place = some (some x.place) := load_place h₀
    simp only [hlookup, Option.bind_some, hload, hnode]
    cases l with
    | nil =>
      refine ⟨d, ctx₀, x, .nil, r, rfl, h₀, .inl rfl, rfl, hnode, congrArg _ hplug, ?_, hctx₀, hl,
        hr, hway.root⟩
      refine ⟨ctx₀.before, x.weight, r.entries ++ ctx₀.after, ?_, ?_⟩
      · rw [hentries, ← hkey]
        simp [PDFTree.entries]
      · simp [PDFTree.entries]
    | node x₁ l₁ r₁ =>
      have hleft : d.Has R (⟨true, x, r⟩ :: ctx₀) (.node x₁ l₁ r₁) := has_cons.mpr h₀
      have hsize : (PDFTree.node x₁ l₁ r₁).size ≤ d.fuel := by
        have hlength := hleft.length_le
        unfold fuel
        omega
      obtain ⟨inner, y, a, hloop, hinner, hafter⟩ := leftMaxLoop_has hleft hsize
      have hmax : d.Has R (inner ++ ⟨true, x, r⟩ :: ctx₀) (.node y a .nil) := by
        apply hleft.of_plug_eq
        rw [PDFContext.plug_append, hinner]
      have h₀' : d.Has R ctx₀ ((⟨true, x, r⟩ : PDFFrame T W).plug (.node x₁ l₁ r₁)) := h₀
      obtain ⟨d₁, hd₁, h₁⟩ := relabel_has h₀' { x with key := y.key, weight := y.weight }
        (fun node => { node with key := y.key, weight := y.weight }) (fun _ _ _ => rfl) rfl
      have hplug₁ : PDFContext.plug
            (inner ++ ⟨true, { x with key := y.key, weight := y.weight }, r⟩ :: ctx₀) (.node y a .nil)
          = ctx₀.plug (.node { x with key := y.key, weight := y.weight } (.node x₁ l₁ r₁) r) := by
        rw [PDFContext.plug_append, hinner]
        rfl
      have hplace : (inner ++ ⟨true, x, r⟩ :: ctx₀ : PDFContext T W).place
          = PDFContext.place
            (inner ++ ⟨true, { x with key := y.key, weight := y.weight }, r⟩ :: ctx₀) := by
        cases inner with
        | nil => rfl
        | cons f inner => rfl
      have hparent : (inner ++ ⟨true, x, r⟩ :: ctx₀ : PDFContext T W).parent
          = PDFContext.parent
            (inner ++ ⟨true, { x with key := y.key, weight := y.weight }, r⟩ :: ctx₀) := by
        cases inner with
        | nil => rfl
        | cons f inner => rfl
      have hloop' : d.leftMaxLoop d.fuel (.left x.place) = _ := hloop
      have hl' := hl
      rw [← hinner] at hl'
      obtain ⟨hinnerSums, -, ha, -⟩ := farSums_of_plug hl'
      refine ⟨d₁, inner ++ ⟨true, { x with key := y.key, weight := y.weight }, r⟩ :: ctx₀, y, a, .nil,
        ?_, h₁.of_plug_eq hplug₁, .inr rfl, ?_, ?_, ?_, ?_, ?_, ha, trivial, ?_⟩
      · dsimp only [PDFTree.root]
        rw [hloop', Option.bind_some, load_place hmax, Option.bind_some]
        show ((d.node y.place).bind _) = _
        rw [hmax.node_eq, Option.bind_some]
        dsimp only
        rw [hd₁, Option.bind_some, hplace]
      · dsimp only [PDFTree.root]
        rw [hloop', Option.bind_some, load_place hmax, Option.bind_some]
        rfl
      · rw [← hparent]
        exact hmax.node_eq
      · rw [hplug₁, ← hplug]
        exact PDFContext.skeleton_plug ctx₀ rfl
      · have hlist : (PDFTree.node x₁ l₁ r₁).entries
            = PDFContext.before inner ++ (a.entries ++ [(y.key, y.weight)]) := by
          rw [← hinner, PDFContext.entries_plug, hafter, List.append_nil, PDFTree.entries]
          rfl
        refine ⟨ctx₀.before ++ (PDFTree.node x₁ l₁ r₁).entries, x.weight, r.entries ++ ctx₀.after,
          ?_, ?_⟩
        · rw [hentries, ← hkey]
          simp
        · rw [PDFContext.before_append, PDFContext.after_append, hafter, hlist]
          simp [PDFContext.before, PDFContext.after, PDFFrame.before, PDFFrame.after,
            PDFTree.entries]
      · intro f hf
        rcases List.mem_append.mp hf with hf | hf
        · exact hinnerSums f hf
        · rcases List.mem_cons.mp hf with rfl | hf
          · exact hr
          · exact hctx₀ f hf
      · have hroot₀ : ctx₀.rootMark x.mark = false := hway.root
        have hmark := PDFContext.mark_plug
          (inner ++ ⟨true, { x with key := y.key, weight := y.weight }, r⟩ :: ctx₀) (.node y a .nil)
        rw [hplug₁, PDFContext.mark_plug] at hmark
        exact hmark.symm.trans hroot₀

/-- `t'` is `t` without the item: a node `y` under `ctx` with one child at most, or none, was
taken out, the child `c` came up, and `lengthen` made `ctx'` of the frames. -/
structure Removed (item : T) (t t' : PDFTree T W) (ctx : PDFContext T W) (y : PDFLabel T W)
    (a b c : PDFTree T W) (ctx' : PDFContext T W) (mark : Bool) : Prop where
  skeleton : (ctx.plug (.node y a b)).skeleton = t.skeleton
  child : (a = .nil ∧ c = b) ∨ (b = .nil ∧ c = a)
  bare : t'.bare = (ctx'.plug (c.setMark mark)).bare
  keep : y.mark = true ∨ c = .nil → ctx' = ctx ∧ mark = c.mark
  red : y.mark = false → c.mark = true → ctx' = ctx ∧ mark = false

/-- `remove` succeeds for an item in the tree, and takes its entry away. -/
theorem remove_has (h : d.Has R [] t) (hsums : t.Sums) (hroot : t.mark = false)
    (hsorted : Increasing t.entries) (hpresent : ∃ e ∈ t.entries, e.1 = item) :
    ∃ d' t' ctx y a b c ctx' mark, d.victim item = some (PDFLabel.place y)
      ∧ d.node y.place = some ⟨y.mark, PDFContext.parent ctx, PDFTree.root a, PDFTree.root b, y.key,
        y.weight, y.sum⟩
      ∧ d.remove item = some d' ∧ d'.Has R [] t' ∧ t'.Sums
      ∧ t'.mark = false ∧ Without item t.entries t'.entries
      ∧ Removed item t t' ctx y a b c ctx' mark := by
  obtain ⟨d₁, ctx, y, a, b, hd₁, h₁, hone, hvictim, hnode, hskeleton, hwithout, hctx, ha, hb,
    hroot₁⟩ := exchangeMax_has h hsums hroot hsorted hpresent
  obtain ⟨c, hc, hcs, hcentries⟩ : ∃ c, ((a = .nil ∧ c = b) ∨ (b = .nil ∧ c = a))
      ∧ PDFTree.Sums c ∧ a.entries ++ b.entries = c.entries := by
    rcases hone with rfl | rfl
    · exact ⟨b, .inl ⟨rfl, rfl⟩, hb, rfl⟩
    · exact ⟨a, .inr ⟨rfl, rfl⟩, ha, List.append_nil _⟩
  obtain ⟨d', t', ctx', mark, hd', h', hsums', hmark', hbare, habove, hkeep, hred⟩ :=
    takeOut_has h₁ hc hctx hcs hroot₁
  refine ⟨d', t', ctx, y, a, b, c, ctx', mark, hvictim, hnode, ?_, h', hsums', hmark', ?_,
    hskeleton, hc, hbare, hkeep, hred⟩
  · rw [remove_eq, hd₁, Option.bind_some]
    exact hd'
  · rw [← PDFTree.entries_bare t', hbare, PDFTree.entries_bare, PDFContext.entries_plug,
      PDFTree.entries_setMark, habove.before, habove.after, ← hcentries]
    exact hwithout

end Remove

end DiscretePDF

end Xklee
