/-
The colours of a weighted choice.

A tree is red-black when no red node has a red child and every way down has the same number of
black nodes. A cut tree is red-black when the part below the cut has some black height that
the frames above accept. So an operation at the cut is judged by the frames next to it.

On its way down `insert` splits what has two red children, so that a red parent of the next
node to be split has a black sibling (`Safe`): the rotations of `split` then leave no red
child under the grandparent, which is red by then. A node that was split just now may be red
with a red sibling, but what is below it is not split.

`remove` takes out a node with one child at most. In a red-black tree that is a red node or a
black node without children, or a black node whose one child is red and becomes black. The
black node without children leaves a way with one black node less, and nothing makes up for
it unless the tree is empty then: `Removed.colours_iff`.
-/
import Xklee.ADT.PDFRemove

set_option autoImplicit false

namespace Xklee

variable {T W : Type}

/-! ## Red-black trees -/

/-- No red node has a red child, and every way down has `k` black nodes. -/
def PDFTree.RedBlack : PDFTree T W → ℕ → Prop
  | nil, k => k = 0
  | node x l r, k =>
      if x.mark then (l.mark = false ∧ r.mark = false) ∧ l.RedBlack k ∧ r.RedBlack k
      else ∃ j, k = j + 1 ∧ l.RedBlack j ∧ r.RedBlack j

/-- The longest way down. -/
def PDFTree.depth : PDFTree T W → ℕ
  | nil => 0
  | node _ l r => max l.depth r.depth + 1

namespace PDFTree

variable {x : PDFLabel T W} {l r t : PDFTree T W} {k : ℕ}

theorem redBlack_red (hx : x.mark = true) :
    (node x l r).RedBlack k
      ↔ (l.mark = false ∧ r.mark = false) ∧ l.RedBlack k ∧ r.RedBlack k := by
  rw [RedBlack, if_pos hx]

theorem redBlack_black (hx : x.mark = false) :
    (node x l r).RedBlack k ↔ ∃ j, k = j + 1 ∧ l.RedBlack j ∧ r.RedBlack j := by
  rw [RedBlack, if_neg (by simp [hx])]

/-- The sums have no colour. -/
theorem redBlack_bare [Zero W] (t : PDFTree T W) (k : ℕ) : t.bare.RedBlack k ↔ t.RedBlack k := by
  induction t generalizing k with
  | nil => exact Iff.rfl
  | node x l r ihl ihr =>
    cases hx : x.mark with
    | true =>
      rw [bare, redBlack_red hx, redBlack_red (show ({ x with sum := 0 } : PDFLabel T W).mark = true
        from hx), mark_bare, mark_bare, ihl, ihr]
    | false =>
      rw [bare, redBlack_black hx,
        redBlack_black (show ({ x with sum := 0 } : PDFLabel T W).mark = false from hx)]
      simp only [ihl, ihr]

theorem mark_skeleton (t : PDFTree T W) : t.skeleton.mark = t.mark := by
  cases t with
  | nil => rfl
  | node x l r => rfl

/-- Neither have the items. -/
theorem redBlack_skeleton (t : PDFTree T W) (k : ℕ) : t.skeleton.RedBlack k ↔ t.RedBlack k := by
  induction t generalizing k with
  | nil => exact Iff.rfl
  | node x l r ihl ihr =>
    rw [skeleton, RedBlack, RedBlack]
    simp only [ihl, ihr, mark_skeleton]

/-- A red root may become black. -/
theorem RedBlack.blacken (h : t.RedBlack k) (hred : t.mark = true) :
    (t.setMark false).RedBlack (k + 1) := by
  cases t with
  | nil => exact absurd hred (by simp [mark])
  | node x l r =>
    obtain ⟨-, hl, hr⟩ := (redBlack_red hred).mp h
    exact (redBlack_black rfl).mpr ⟨k, rfl, hl, hr⟩

/-- A tree of black height 0 under a black place is empty. -/
theorem RedBlack.eq_nil (h : t.RedBlack 0) (hblack : t.mark = false) : t = nil := by
  cases t with
  | nil => rfl
  | node x l r =>
    obtain ⟨j, hj, -⟩ := (redBlack_black hblack).mp h
    omega

theorem RedBlack.unique {k' : ℕ} (h : t.RedBlack k) (h' : t.RedBlack k') :
    k = k' := by
  induction t generalizing k k' with
  | nil => exact Eq.trans h (Eq.symm h')
  | node x l r ihl _ =>
    cases hx : x.mark with
    | true =>
      obtain ⟨-, hl, -⟩ := (redBlack_red hx).mp h
      obtain ⟨-, hl', -⟩ := (redBlack_red hx).mp h'
      exact ihl hl hl'
    | false =>
      obtain ⟨j, rfl, hl, -⟩ := (redBlack_black hx).mp h
      obtain ⟨j', rfl, hl', -⟩ := (redBlack_black hx).mp h'
      rw [ihl hl hl']

/-- The depth is at most twice the black height, and one more under a red root. -/
theorem RedBlack.depth_le (h : t.RedBlack k) :
    t.depth ≤ 2 * k + (if t.mark then 1 else 0) := by
  induction t generalizing k with
  | nil => exact Nat.zero_le _
  | node x l r ihl ihr =>
    rw [depth, mark]
    cases hx : x.mark with
    | true =>
      obtain ⟨⟨hlm, hrm⟩, hl, hr⟩ := (redBlack_red hx).mp h
      have hdl := ihl hl
      have hdr := ihr hr
      rw [hlm, if_neg (by simp)] at hdl
      rw [hrm, if_neg (by simp)] at hdr
      rw [if_pos rfl]
      omega
    | false =>
      obtain ⟨j, rfl, hl, hr⟩ := (redBlack_black hx).mp h
      have hdl := ihl hl
      have hdr := ihr hr
      have hone : ∀ b : Bool, (if b = true then 1 else 0) ≤ 1 := by
        intro b
        split <;> omega
      have hlm := hone l.mark
      have hrm := hone r.mark
      rw [if_neg (by simp)]
      omega

/-- There are at least as many nodes as in a full tree of the black height. -/
theorem RedBlack.le_size (h : t.RedBlack k) : 2 ^ k ≤ t.size + 1 := by
  induction t generalizing k with
  | nil =>
    obtain rfl : k = 0 := h
    exact Nat.le_refl 1
  | node x l r ihl ihr =>
    rw [size]
    cases hx : x.mark with
    | true =>
      obtain ⟨-, hl, hr⟩ := (redBlack_red hx).mp h
      have hsl := ihl hl
      omega
    | false =>
      obtain ⟨j, rfl, hl, hr⟩ := (redBlack_black hx).mp h
      have hsl := ihl hl
      have hsr := ihr hr
      rw [pow_succ]
      omega

/-- Depth is logarithmic in the number of items. -/
theorem RedBlack.two_pow_depth_le (h : t.RedBlack k) (hroot : t.mark = false) :
    2 ^ t.depth ≤ (t.size + 1) ^ 2 := by
  have hdepth := h.depth_le
  rw [hroot, if_neg (by simp), Nat.add_zero] at hdepth
  calc 2 ^ t.depth ≤ 2 ^ (2 * k) := Nat.pow_le_pow_right (by omega) hdepth
    _ = (2 ^ k) ^ 2 := by rw [Nat.mul_comm, pow_mul]
    _ ≤ (t.size + 1) ^ 2 := Nat.pow_le_pow_left h.le_size 2

end PDFTree

/-! ## Cut trees -/

namespace PDFContext

/-- The frames make a red-black tree with a black root of a part of this colour and black
height. -/
def Accepts : PDFContext T W → Bool → ℕ → Prop
  | [], mark, _ => mark = false
  | f :: ctx, mark, k =>
      f.far.RedBlack k
        ∧ if f.x.mark then (mark = false ∧ f.far.mark = false) ∧ Accepts ctx true k
          else Accepts ctx false (k + 1)

variable {f : PDFFrame T W} {ctx : PDFContext T W} {mark : Bool} {k : ℕ}

theorem accepts_red (hf : f.x.mark = true) : Accepts (f :: ctx) mark k
      ↔ f.far.RedBlack k ∧ (mark = false ∧ f.far.mark = false) ∧ Accepts ctx true k := by
  rw [Accepts, if_pos hf]

theorem accepts_black (hf : f.x.mark = false) :
    Accepts (f :: ctx) mark k ↔ f.far.RedBlack k ∧ Accepts ctx false (k + 1) := by
  rw [Accepts, if_neg (by simp [hf])]

/-- What accepts a red part accepts a black one. -/
theorem Accepts.black (h : Accepts ctx mark k) :
    Accepts ctx false k := by
  cases ctx with
  | nil => rfl
  | cons f ctx =>
    cases hf : f.x.mark with
    | true =>
      obtain ⟨hfar, ⟨-, hfm⟩, hctx⟩ := (accepts_red hf).mp h
      exact (accepts_red hf).mpr ⟨hfar, ⟨rfl, hfm⟩, hctx⟩
    | false => exact (accepts_black hf).mpr ((accepts_black hf).mp h)

/-- The cut tree is red-black. -/
def Colours (ctx : PDFContext T W) (t : PDFTree T W) : Prop :=
  ∃ k, t.RedBlack k ∧ Accepts ctx t.mark k

theorem colours_cons {t : PDFTree T W} :
    Colours (f :: ctx) t ↔ Colours ctx (f.plug t) := by
  have hnode : ∀ k, (f.plug t).RedBlack k
      ↔ if f.x.mark then (t.mark = false ∧ f.far.mark = false) ∧ t.RedBlack k ∧ f.far.RedBlack k
        else ∃ j, k = j + 1 ∧ t.RedBlack j ∧ f.far.RedBlack j := by
    intro k
    obtain ⟨isLeft, x, far⟩ := f
    cases isLeft with
    | true => exact Iff.rfl
    | false =>
      show (PDFTree.node x far t).RedBlack k ↔ _
      rw [PDFTree.RedBlack]
      dsimp only
      split
      next => rw [and_comm (a := far.mark = false), and_comm (a := far.RedBlack k)]
      next => simp only [and_comm (a := far.RedBlack _)]
  unfold Colours
  rw [f.mark_plug]
  cases hf : f.x.mark with
  | true =>
    simp only [hnode, hf, if_true, accepts_red hf]
    constructor
    · rintro ⟨k, ht, hfar, hmarks, hctx⟩
      exact ⟨k, ⟨hmarks, ht, hfar⟩, hctx⟩
    · rintro ⟨k, ⟨hmarks, ht, hfar⟩, hctx⟩
      exact ⟨k, ht, hfar, hmarks, hctx⟩
  | false =>
    simp only [hnode, hf, Bool.false_eq_true, if_false, accepts_black hf]
    constructor
    · rintro ⟨k, ht, hfar, hctx⟩
      exact ⟨k + 1, ⟨k, rfl, ht, hfar⟩, hctx⟩
    · rintro ⟨k, ⟨j, rfl, ht, hfar⟩, hctx⟩
      exact ⟨j, ht, hfar, hctx⟩

/-- It is so wherever it is cut. -/
theorem colours_plug (ctx : PDFContext T W) (t : PDFTree T W) :
    Colours ctx t ↔ Colours [] (plug ctx t) := by
  induction ctx generalizing t with
  | nil => exact Iff.rfl
  | cons f ctx ih => rw [colours_cons, ih, plug]

end PDFContext

/-! ## Insertion -/

namespace PDFTree

/-- A split is going to make this a red node with black children: so it is with the new node,
and with two red children. -/
def splits : PDFTree T W → Bool
  | nil => true
  | node _ l r => l.mark && r.mark

/-- The child on the way to an item. -/
def child [LinearOrder T] (item : T) : PDFTree T W → PDFTree T W
  | nil => nil
  | node x l r => if item < x.key then l else r

/-- A red node becomes black, and its children are black. -/
theorem splits_setMark {t : PDFTree T W} {k : ℕ} (h : t.RedBlack k) (hred : t.mark = true) :
    (t.setMark false).splits = false := by
  cases t with
  | nil => exact absurd hred (by simp [mark])
  | node x l r =>
    obtain ⟨⟨hl, hr⟩, -⟩ := (redBlack_red hred).mp h
    show (l.mark && r.mark) = false
    rw [hl]
    rfl

end PDFTree

namespace DiscretePDF

/-- A red parent has a black sibling. -/
def UncleBlack : PDFContext T W → Prop
  | f :: g :: _ => f.x.mark = true → g.far.mark = false
  | _ => True

/-- The sibling is black. -/
def SiblingBlack : PDFContext T W → Prop
  | f :: _ => f.far.mark = false
  | [] => True

/-- The cut node may be split, if it is to be; and the next one, if that is to be. -/
structure Safe [LinearOrder T] (item : T) (ctx : PDFContext T W) (t : PDFTree T W) : Prop where
  uncle : t.splits = true → UncleBlack ctx
  sibling : t.mark = true → SiblingBlack ctx ∨ (t.child item).splits = false

section Insert

variable [Field W] {ctx ctx' : PDFContext T W} {x x' : PDFLabel T W} {l r l' r' : PDFTree T W}

/-- A split keeps the tree red-black, where a red parent has a black sibling. -/
theorem SplitTo.colours (h : SplitTo ctx x l r ctx' x' l' r') {k : ℕ} (hl : l.RedBlack k)
    (hr : r.RedBlack k) (hlm : l.mark = false) (hrm : r.mark = false) (hx : x.mark = false)
    (hctx : ctx.Accepts false k) (huncle : UncleBlack ctx) :
    ctx'.Colours (.node x' l' r') := by
  cases h with
  | root => exact ⟨k + 1, (PDFTree.redBlack_black hx).mpr ⟨k, rfl, hl, hr⟩, hx⟩
  | below ctx _ _ _ hf =>
    refine ⟨k, (PDFTree.redBlack_red rfl).mpr ⟨⟨hlm, hrm⟩, hl, hr⟩, ?_⟩
    exact (PDFContext.accepts_black hf).mpr ((PDFContext.accepts_black hf).mp hctx)
  | @same f g ctx _ _ _ sum hf hside =>
    obtain ⟨hffar, ⟨-, hfm⟩, hrest⟩ := (PDFContext.accepts_red hf).mp hctx
    have hgm : g.far.mark = false := huncle hf
    have hg : g.x.mark = false := by
      by_contra hred
      obtain ⟨-, ⟨habsurd, -⟩, -⟩ :=
        (PDFContext.accepts_red (Bool.eq_true_of_not_eq_false hred)).mp hrest
      exact absurd habsurd (by simp)
    obtain ⟨hgfar, htop⟩ := (PDFContext.accepts_black hg).mp hrest
    refine ⟨k, (PDFTree.redBlack_red rfl).mpr ⟨⟨hlm, hrm⟩, hl, hr⟩, ?_⟩
    refine (PDFContext.accepts_black rfl).mpr ⟨?_, htop⟩
    -- the grandparent is red now, between two black trees
    cases g.isLeft with
    | true => exact (PDFTree.redBlack_red rfl).mpr ⟨⟨hfm, hgm⟩, hffar, hgfar⟩
    | false => exact (PDFTree.redBlack_red rfl).mpr ⟨⟨hgm, hfm⟩, hgfar, hffar⟩
  | @crossLeft f g ctx _ _ _ sum hf hleft hright =>
    obtain ⟨hffar, ⟨-, hfm⟩, hrest⟩ := (PDFContext.accepts_red hf).mp hctx
    have hgm : g.far.mark = false := huncle hf
    have hg : g.x.mark = false := by
      by_contra hred
      obtain ⟨-, ⟨habsurd, -⟩, -⟩ :=
        (PDFContext.accepts_red (Bool.eq_true_of_not_eq_false hred)).mp hrest
      exact absurd habsurd (by simp)
    obtain ⟨hgfar, htop⟩ := (PDFContext.accepts_black hg).mp hrest
    refine ⟨k + 1, (PDFTree.redBlack_black rfl).mpr ⟨k, rfl, ?_, ?_⟩, htop⟩
    · exact (PDFTree.redBlack_red rfl).mpr ⟨⟨hgm, hlm⟩, hgfar, hl⟩
    · exact (PDFTree.redBlack_red (show (f.x.withSum r f.far).mark = true from hf)).mpr
        ⟨⟨hrm, hfm⟩, hr, hffar⟩
  | @crossRight f g ctx _ _ _ sum hf hright hleft =>
    obtain ⟨hffar, ⟨-, hfm⟩, hrest⟩ := (PDFContext.accepts_red hf).mp hctx
    have hgm : g.far.mark = false := huncle hf
    have hg : g.x.mark = false := by
      by_contra hred
      obtain ⟨-, ⟨habsurd, -⟩, -⟩ :=
        (PDFContext.accepts_red (Bool.eq_true_of_not_eq_false hred)).mp hrest
      exact absurd habsurd (by simp)
    obtain ⟨hgfar, htop⟩ := (PDFContext.accepts_black hg).mp hrest
    refine ⟨k + 1, (PDFTree.redBlack_black rfl).mpr ⟨k, rfl, ?_, ?_⟩, htop⟩
    · exact (PDFTree.redBlack_red (show (f.x.withSum l f.far).mark = true from hf)).mpr
        ⟨⟨hfm, hlm⟩, hffar, hl⟩
    · exact (PDFTree.redBlack_red rfl).mpr ⟨⟨hrm, hgm⟩, hr, hgfar⟩

variable [LinearOrder T] {item : T}

/-- What is below a split needs no split, and a red child of the node leads to that. -/
theorem SplitTo.safe (h : SplitTo ctx x l r ctx' x' l' r') (hfits : Fits item ctx)
    (hlm : l.mark = false) (hrm : r.mark = false) (hls : l.splits = false)
    (hrs : r.splits = false) :
    (item < x.key → Safe item (⟨true, x', r'⟩ :: ctx') l')
      ∧ (x.key < item → Safe item (⟨false, x', l'⟩ :: ctx') r') := by
  have hstay : ∀ (f : PDFFrame T W) (ctx : PDFContext T W),
      Safe item (f :: ctx) l ∧ Safe item (f :: ctx) r := by
    intro f ctx
    constructor
    · exact ⟨fun hs => absurd (hls.symm.trans hs) (by simp),
        fun hm => absurd (hlm.symm.trans hm) (by simp)⟩
    · exact ⟨fun hs => absurd (hrs.symm.trans hs) (by simp),
        fun hm => absurd (hrm.symm.trans hm) (by simp)⟩
  cases h with
  | root => exact ⟨fun _ => (hstay _ _).1, fun _ => (hstay _ _).2⟩
  | below => exact ⟨fun _ => (hstay _ _).1, fun _ => (hstay _ _).2⟩
  | same => exact ⟨fun _ => (hstay _ _).1, fun _ => (hstay _ _).2⟩
  | @crossLeft f g ctx _ _ _ sum hf hleft hright =>
    have hg : g.x.key < item := by
      apply hfits.before (g.x.key, g.x.weight)
      simp [PDFContext.before, PDFFrame.before, hright]
    have hf' : item < f.x.key := by
      apply hfits.after (f.x.key, f.x.weight)
      simp [PDFContext.after, PDFFrame.after, hleft]
    constructor
    · intro _
      refine ⟨fun hs => absurd hs ?_, fun _ => .inr ?_⟩
      · simp [PDFTree.splits, hlm]
      · show (if item < g.x.key then g.far else l).splits = false
        rw [if_neg hg.le.not_gt, hls]
    · intro _
      refine ⟨fun hs => absurd hs ?_, fun _ => .inr ?_⟩
      · simp [PDFTree.splits, hrm]
      · show (if item < f.x.key then r else f.far).splits = false
        rw [if_pos hf', hrs]
  | @crossRight f g ctx _ _ _ sum hf hright hleft =>
    have hg : item < g.x.key := by
      apply hfits.after (g.x.key, g.x.weight)
      simp [PDFContext.after, PDFFrame.after, hleft]
    have hf' : f.x.key < item := by
      apply hfits.before (f.x.key, f.x.weight)
      simp [PDFContext.before, PDFFrame.before, hright]
    constructor
    · intro _
      refine ⟨fun hs => absurd hs ?_, fun _ => .inr ?_⟩
      · simp [PDFTree.splits, hlm]
      · show (if item < f.x.key then f.far else l).splits = false
        rw [if_neg hf'.le.not_gt, hls]
    · intro _
      refine ⟨fun hs => absurd hs ?_, fun _ => .inr ?_⟩
      · simp [PDFTree.splits, hrm]
      · show (if item < g.x.key then r else g.far).splits = false
        rw [if_pos hg, hrs]

/-- A pass of the loop keeps the tree red-black, and the next node may be split. -/
theorem Prepared.colours (h : Prepared ctx x l r ctx' x' l' r') (hfits : Fits item ctx)
    (hcolours : ctx.Colours (.node x l r)) (hsafe : Safe item ctx (.node x l r)) :
    ctx'.Colours (.node x' l' r')
      ∧ (item < x.key → Safe item (⟨true, x', r'⟩ :: ctx') l')
      ∧ (x.key < item → Safe item (⟨false, x', l'⟩ :: ctx') r') := by
  obtain ⟨k, htree, hctx⟩ := hcolours
  cases h with
  | split hred h =>
    obtain ⟨hl, hr⟩ := (Bool.and_eq_true _ _).mp hred
    -- a node with red children is black
    have hx : x.mark = false := by
      by_contra hxred
      obtain ⟨⟨hlm, -⟩, -⟩ := (PDFTree.redBlack_red (Bool.eq_true_of_not_eq_false hxred)).mp htree
      exact absurd (hl.symm.trans hlm) (by simp)
    obtain ⟨j, rfl, hlb, hrb⟩ := (PDFTree.redBlack_black hx).mp htree
    have hmark : (PDFTree.node x l r).mark = false := hx
    rw [hmark] at hctx
    have hsafe' := h.safe hfits l.mark_setMark_false r.mark_setMark_false
      (PDFTree.splits_setMark hlb hl) (PDFTree.splits_setMark hrb hr)
    refine ⟨?_, hsafe'⟩
    exact h.colours (hlb.blacken hl) (hrb.blacken hr) l.mark_setMark_false r.mark_setMark_false hx
      hctx (hsafe.uncle hred)
  | keep hblack =>
    refine ⟨⟨k, htree, hctx⟩, fun hlt => ?_, fun hlt => ?_⟩
    · constructor
      · intro hs
        cases ctx with
        | nil => trivial
        | cons f ctx =>
          intro hx
          have hx : (PDFTree.node x l r).mark = true := hx
          rcases hsafe.sibling hx with hfar | hchild
          · exact hfar
          · rw [PDFTree.child, if_pos hlt] at hchild
            exact absurd (hs.symm.trans hchild) (by simp)
      · intro hm
        rw [hm, Bool.true_and] at hblack
        exact .inl hblack
    · constructor
      · intro hs
        cases ctx with
        | nil => trivial
        | cons f ctx =>
          intro hx
          have hx : (PDFTree.node x l r).mark = true := hx
          rcases hsafe.sibling hx with hfar | hchild
          · exact hfar
          · rw [PDFTree.child, if_neg hlt.le.not_gt] at hchild
            exact absurd (hs.symm.trans hchild) (by simp)
      · intro hm
        rw [hm, Bool.and_true] at hblack
        exact .inl hblack

/-- The way down keeps the tree red-black, and the new node may be split at its end. -/
theorem Descends.colours {t : PDFTree T W} {entries : List (T × W)} (h : Descends item ctx t ctx')
    (hway : Way item entries ctx t) (hsorted : Increasing entries) (hcolours : ctx.Colours t)
    (hsafe : Safe item ctx t) : ctx'.Colours .nil ∧ UncleBlack ctx' := by
  induction h with
  | nil ctx => exact ⟨hcolours, hsafe.uncle rfl⟩
  | @left ctx ctx' ctx'' x x' l r l' r' h hlt _ ih =>
    obtain ⟨hcolours', hleft, -⟩ := h.colours hway.fits hcolours hsafe
    have hnext := (hway.prepared h).left hsorted (show item < x'.key from h.key ▸ hlt)
    exact ih hnext (PDFContext.colours_cons.mpr hcolours') (hleft hlt)
  | @right ctx ctx' ctx'' x x' l r l' r' h hlt _ ih =>
    obtain ⟨hcolours', -, hright⟩ := h.colours hway.fits hcolours hsafe
    have hnext := (hway.prepared h).right hsorted (show x'.key < item from h.key ▸ hlt)
    exact ih hnext (PDFContext.colours_cons.mpr hcolours') (hright hlt)

/-- `insert` keeps the tree red-black. -/
theorem Inserted.colours {t t' : PDFTree T W} {weight : W} {n : ℕ}
    (h : Inserted item weight t t' ctx ctx' n x' l' r') (hsorted : Increasing t.entries)
    (hcolours : PDFContext.Colours [] t) : PDFContext.Colours [] t' := by
  have hroot : t.mark = false := by
    obtain ⟨k, -, hmark⟩ := hcolours
    exact hmark
  have hway : Way item t.entries [] t :=
    ⟨rfl, ⟨fun e he => absurd he List.not_mem_nil, fun e he => absurd he List.not_mem_nil⟩, hroot⟩
  have hsafe : Safe item [] t := ⟨fun _ => trivial, fun _ => .inl trivial⟩
  obtain ⟨⟨k, hnil, hctx⟩, huncle⟩ := h.descends.colours hway hsorted hcolours hsafe
  obtain rfl : k = 0 := hnil
  have hempty : (PDFTree.nil : PDFTree T W).RedBlack 0 := rfl
  have hnode : ctx'.Colours (.node x' l' r') :=
    h.splits.colours hempty hempty rfl rfl rfl hctx huncle
  obtain ⟨j, htree, hmark⟩ := (ctx'.colours_plug _).mp hnode
  refine ⟨j, ?_, ?_⟩
  · rw [← PDFTree.redBlack_bare, h.bare, PDFTree.redBlack_bare]
    exact htree
  · show t'.mark = false
    rw [← PDFTree.mark_bare, h.bare, PDFTree.mark_bare]
    exact hmark

end Insert

/-! ## Removal -/

section Remove

variable {ctx ctx' : PDFContext T W} {t t' : PDFTree T W}

/-- Frames that are above something accept one black height only. -/
theorem accepts_unique {f : PDFFrame T W} {mark mark' : Bool} {k k' : ℕ}
    (h : PDFContext.Accepts (f :: ctx) mark k) (h' : PDFContext.Accepts (f :: ctx) mark' k') :
    k = k' := h.1.unique h'.1

theorem colours_of_skeleton (h : t.skeleton = t'.skeleton) :
    PDFContext.Colours [] t ↔ PDFContext.Colours [] t' := by
  have hmark : t.mark = t'.mark := by rw [← t.mark_skeleton, h, t'.mark_skeleton]
  have hred : ∀ k, t.RedBlack k ↔ t'.RedBlack k := by
    intro k
    rw [← t.redBlack_skeleton, h, t'.redBlack_skeleton]
  unfold PDFContext.Colours
  simp only [hred, hmark]

theorem colours_of_bare [Zero W] (h : t.bare = t'.bare) :
    PDFContext.Colours [] t ↔ PDFContext.Colours [] t' := by
  have hmark : t.mark = t'.mark := by rw [← t.mark_bare, h, t'.mark_bare]
  have hred : ∀ k, t.RedBlack k ↔ t'.RedBlack k := by
    intro k
    rw [← t.redBlack_bare, h, t'.redBlack_bare]
  unfold PDFContext.Colours
  simp only [hred, hmark]

variable [Field W] {item : T} {y : PDFLabel T W} {a b c : PDFTree T W} {mark : Bool}

/-- `remove` keeps a tree red-black unless it takes out a black node without children, other
than the root. -/
theorem Removed.colours_iff (h : Removed item t t' ctx y a b c ctx' mark)
    (hcolours : PDFContext.Colours [] t) :
    PDFContext.Colours [] t' ↔ ¬(y.mark = false ∧ c = .nil ∧ ctx ≠ []) := by
  obtain ⟨k, hnode, hctx⟩ : ctx.Colours (.node y a b) := by
    rw [PDFContext.colours_plug, colours_of_skeleton h.skeleton]
    exact hcolours
  rw [colours_of_bare h.bare, ← PDFContext.colours_plug]
  -- a tree of black height 0 is beside the child, which has black height 0, too
  have hchild : ∀ j, a.RedBlack j → b.RedBlack j → j = 0 ∧ c.RedBlack 0 := by
    intro j ha hb
    rcases h.child with ⟨rfl, rfl⟩ | ⟨rfl, rfl⟩
    · obtain rfl : j = 0 := ha
      exact ⟨rfl, hb⟩
    · obtain rfl : j = 0 := hb
      exact ⟨rfl, ha⟩
  have hy : (PDFTree.node y a b).mark = y.mark := rfl
  rw [hy] at hctx
  cases hmark : y.mark with
  | true =>
    obtain ⟨⟨ham, hbm⟩, ha, hb⟩ := (PDFTree.redBlack_red hmark).mp hnode
    obtain ⟨rfl, hc⟩ := hchild k ha hb
    have hcm : c.mark = false := by
      rcases h.child with ⟨-, rfl⟩ | ⟨-, rfl⟩
      · exact hbm
      · exact ham
    obtain ⟨rfl, rfl⟩ := h.keep (.inl hmark)
    refine iff_of_true ⟨0, ?_, ?_⟩ (fun h => absurd h.1 (by simp))
    · rw [hc.eq_nil hcm]
      exact rfl
    · rw [hc.eq_nil hcm]
      exact hctx.black
  | false =>
    obtain ⟨j, rfl, ha, hb⟩ := (PDFTree.redBlack_black hmark).mp hnode
    obtain ⟨rfl, hc⟩ := hchild j ha hb
    rw [hmark] at hctx
    cases hcm : c.mark with
    | true =>
      -- the red child takes the place of the black node
      obtain ⟨rfl, rfl⟩ := h.red hmark hcm
      refine iff_of_true ⟨1, hc.blacken hcm, ?_⟩ (fun h => ?_)
      · rw [c.mark_setMark_false]
        exact hctx
      · rw [h.2.1] at hcm
        exact absurd hcm (by simp [PDFTree.mark])
    | false =>
      obtain rfl := hc.eq_nil hcm
      obtain ⟨rfl, rfl⟩ := h.keep (.inr rfl)
      cases ctx' with
      | nil => exact iff_of_true ⟨0, rfl, rfl⟩ (fun h => h.2.2 rfl)
      | cons f ctx' =>
        refine iff_of_false ?_ (fun h => h ⟨rfl, rfl, by simp⟩)
        rintro ⟨k, hnil, hk⟩
        obtain rfl : k = 0 := hnil
        exact absurd (accepts_unique hctx hk) (by omega)

end Remove

end DiscretePDF

end Xklee
