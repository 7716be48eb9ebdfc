/-
The trees of a weighted choice, apart from the heap.

A tree is cut at a node into the part below it and the frames above it, so that what an
operation does at a node can be said without the rest. A frame does not say which side is
left: what holds of one side then holds of the other.
-/
import Mathlib.Algebra.Order.Field.Basic
import Mathlib.Algebra.Order.Group.Multiset
import Mathlib.Algebra.BigOperators.Group.List.Basic
import Mathlib.Tactic.Abel
import Xklee.ADT.DiscretePDF
import Xklee.Data.HeapCells

set_option autoImplicit false

namespace Xklee

/-- A node without its pointers. -/
structure PDFLabel (T W : Type) where
  place : ℕ
  mark : Bool
  key : T
  weight : W
  sum : W

inductive PDFTree (T W : Type)
  | nil
  | node (x : PDFLabel T W) (left right : PDFTree T W)

/-- A node above the place where a tree is cut, `near` side of which has been cut off: the
left one if `isLeft`. -/
structure PDFFrame (T W : Type) where
  isLeft : Bool
  x : PDFLabel T W
  far : PDFTree T W

variable {T W : Type}

namespace PDFTree

def root : PDFTree T W → Option ℕ
  | nil => none
  | node x _ _ => some x.place

def size : PDFTree T W → ℕ
  | nil => 0
  | node _ l r => l.size + r.size + 1

/-- The items and their weights in the order of the tree. -/
def entries : PDFTree T W → List (T × W)
  | nil => []
  | node x l r => l.entries ++ (x.key, x.weight) :: r.entries

/-- What the tree adds to a sum. -/
def sumOf [Zero W] : PDFTree T W → W
  | nil => 0
  | node x _ _ => x.sum

/-- Every sum is that of the weights below. -/
def Sums [Add W] [Zero W] : PDFTree T W → Prop
  | nil => True
  | node x l r => x.sum = x.weight + l.sumOf + r.sumOf ∧ l.Sums ∧ r.Sums

/-- The colour of the root; nothing is black. -/
def mark : PDFTree T W → Bool
  | nil => false
  | node x _ _ => x.mark

def setMark (mark : Bool) : PDFTree T W → PDFTree T W
  | nil => nil
  | node x l r => node { x with mark := mark } l r

/-- The tree without its sums. -/
def bare [Zero W] : PDFTree T W → PDFTree T W
  | nil => nil
  | node x l r => node { x with sum := 0 } l.bare r.bare

theorem entries_bare [Zero W] (t : PDFTree T W) : t.bare.entries = t.entries := by
  induction t with
  | nil => rfl
  | node x l r ihl ihr => rw [bare, entries, entries, ihl, ihr]

theorem mark_bare [Zero W] (t : PDFTree T W) : t.bare.mark = t.mark := by
  cases t with
  | nil => rfl
  | node x l r => rfl

/-- The shape and the colours of the tree. -/
def skeleton : PDFTree T W → PDFTree Unit Unit
  | nil => nil
  | node x l r => node ⟨x.place, x.mark, (), (), ()⟩ l.skeleton r.skeleton

theorem entries_setMark (t : PDFTree T W) (mark : Bool) : (t.setMark mark).entries = t.entries := by
  cases t with
  | nil => rfl
  | node x l r => rfl

theorem sums_setMark [Add W] [Zero W] {t : PDFTree T W} (h : t.Sums) (mark : Bool) :
    (t.setMark mark).Sums := by
  cases t with
  | nil => exact h
  | node x l r => exact h

end PDFTree

namespace PDFLabel

def withMark (x : PDFLabel T W) (mark : Bool) : PDFLabel T W := { x with mark := mark }

/-- The sum is that of the weight and of two subtrees. -/
def withSum [Add W] [Zero W] (x : PDFLabel T W) (near far : PDFTree T W) : PDFLabel T W :=
  { x with sum := x.weight + near.sumOf + far.sumOf }

end PDFLabel

/-- The cell of a node, whose children are `near` and `far`. -/
def PDFLabel.cell (x : PDFLabel T W) (parent : Option ℕ) (isLeft : Bool) (near far : Option ℕ) :
    ℕ × PDFNode T W :=
  (x.place, ⟨x.mark, parent, if isLeft then near else far, if isLeft then far else near, x.key,
    x.weight, x.sum⟩)

def PDFTree.cells (parent : Option ℕ) : PDFTree T W → Multiset (ℕ × PDFNode T W)
  | .nil => 0
  | .node x l r =>
      x.cell parent true l.root r.root ::ₘ (l.cells (some x.place) + r.cells (some x.place))

namespace PDFFrame

def plug (f : PDFFrame T W) (t : PDFTree T W) : PDFTree T W :=
  if f.isLeft then .node f.x t f.far else .node f.x f.far t

theorem root_plug (f : PDFFrame T W) (t : PDFTree T W) : (f.plug t).root = some f.x.place := by
  rw [plug]
  cases f.isLeft with
  | true => rfl
  | false => rfl

theorem cells_plug (f : PDFFrame T W) (t : PDFTree T W) (parent : Option ℕ) :
    (f.plug t).cells parent = f.x.cell parent f.isLeft t.root f.far.root
      ::ₘ (t.cells (some f.x.place) + f.far.cells (some f.x.place)) := by
  obtain ⟨isLeft, x, far⟩ := f
  cases isLeft with
  | true => rfl
  | false => exact congrArg (Multiset.cons _) (add_comm _ _)

theorem plug_flip (isLeft : Bool) (x : PDFLabel T W) (t u : PDFTree T W) :
    (⟨isLeft, x, t⟩ : PDFFrame T W).plug u = (⟨!isLeft, x, u⟩ : PDFFrame T W).plug t := by
  cases isLeft with
  | true => rfl
  | false => rfl

theorem mark_plug (f : PDFFrame T W) (t : PDFTree T W) : (f.plug t).mark = f.x.mark := by
  rw [plug]
  cases f.isLeft with
  | true => rfl
  | false => rfl

/-- The entries of the frame before those of the part that is cut off. -/
def before (f : PDFFrame T W) : List (T × W) :=
  if f.isLeft then [] else f.far.entries ++ [(f.x.key, f.x.weight)]

def after (f : PDFFrame T W) : List (T × W) :=
  if f.isLeft then (f.x.key, f.x.weight) :: f.far.entries else []

theorem entries_plug (f : PDFFrame T W) (t : PDFTree T W) :
    (f.plug t).entries = f.before ++ t.entries ++ f.after := by
  obtain ⟨isLeft, x, far⟩ := f
  cases isLeft with
  | true => rfl
  | false =>
    change far.entries ++ (x.key, x.weight) :: t.entries
      = far.entries ++ [(x.key, x.weight)] ++ t.entries ++ []
    rw [List.append_nil, List.append_assoc]
    rfl

end PDFFrame

/-! ## The frames above a node, from the innermost on -/

abbrev PDFContext (T W : Type) : Type := List (PDFFrame T W)

namespace PDFContext

def plug : PDFContext T W → PDFTree T W → PDFTree T W
  | [], t => t
  | f :: ctx, t => plug ctx (f.plug t)

def parent : PDFContext T W → Option ℕ
  | [] => none
  | f :: _ => some f.x.place

/-- `m_root`, where the root of the tree that was cut off is `child`. -/
def rootOf : PDFContext T W → Option ℕ → Option ℕ
  | [], child => child
  | f :: ctx, _ => rootOf ctx (some f.x.place)

def cells : PDFContext T W → Option ℕ → Multiset (ℕ × PDFNode T W)
  | [], _ => 0
  | f :: ctx, child => f.x.cell (parent ctx) f.isLeft child f.far.root
      ::ₘ (f.far.cells (some f.x.place) + cells ctx (some f.x.place))

theorem rootOf_eq (ctx : PDFContext T W) (t : PDFTree T W) :
    rootOf ctx t.root = (plug ctx t).root := by
  induction ctx generalizing t with
  | nil => rfl
  | cons f ctx ih =>
    rw [rootOf, plug, ← ih, f.root_plug]

theorem cells_plug (ctx : PDFContext T W) (t : PDFTree T W) :
    t.cells (parent ctx) + cells ctx t.root = (plug ctx t).cells none := by
  induction ctx generalizing t with
  | nil => exact add_zero _
  | cons f ctx ih =>
    rw [plug, ← ih, f.cells_plug, f.root_plug, cells, parent]
    simp only [← Multiset.singleton_add]
    abel

/-- The entries of the frames before those of the part that is cut off. -/
def before : PDFContext T W → List (T × W)
  | [] => []
  | f :: ctx => before ctx ++ f.before

def after : PDFContext T W → List (T × W)
  | [] => []
  | f :: ctx => f.after ++ after ctx

theorem entries_plug (ctx : PDFContext T W) (t : PDFTree T W) :
    (plug ctx t).entries = before ctx ++ t.entries ++ after ctx := by
  induction ctx generalizing t with
  | nil => exact (List.append_nil _).symm
  | cons f ctx ih =>
    rw [plug, ih, f.entries_plug, before, after]
    simp only [List.append_assoc]

/-- The colour of the root, where that of the part that was cut off is `mark`. -/
def rootMark : PDFContext T W → Bool → Bool
  | [], mark => mark
  | f :: ctx, _ => rootMark ctx f.x.mark

theorem mark_plug (ctx : PDFContext T W) (t : PDFTree T W) :
    (plug ctx t).mark = rootMark ctx t.mark := by
  induction ctx generalizing t with
  | nil => rfl
  | cons f ctx ih => rw [plug, ih, f.mark_plug, rootMark]

/-- The rest of the tree does not matter to the part that is cut off. -/
theorem bare_plug [Zero W] (ctx : PDFContext T W) {t t' : PDFTree T W} (h : t.bare = t'.bare) :
    (plug ctx t).bare = (plug ctx t').bare := by
  induction ctx generalizing t t' with
  | nil => exact h
  | cons f ctx ih =>
    apply ih
    rw [PDFFrame.plug, PDFFrame.plug]
    cases f.isLeft with
    | true => exact congrArg (PDFTree.node _ · _) h
    | false => exact congrArg (PDFTree.node _ _) h

theorem skeleton_plug (ctx : PDFContext T W) {t t' : PDFTree T W} (h : t.skeleton = t'.skeleton) :
    (plug ctx t).skeleton = (plug ctx t').skeleton := by
  induction ctx generalizing t t' with
  | nil => exact h
  | cons f ctx ih =>
    apply ih
    rw [PDFFrame.plug, PDFFrame.plug]
    cases f.isLeft with
    | true => exact congrArg (PDFTree.node _ · _) h
    | false => exact congrArg (PDFTree.node _ _) h

theorem rootMark_black {ctx : PDFContext T W} {mark : Bool} (h : ctx.rootMark mark = false) :
    ctx.rootMark false = false := by
  cases ctx with
  | nil => rfl
  | cons f ctx => exact h

/-- The sums of what is beside the path to the cut are right. -/
def FarSums [Add W] [Zero W] (ctx : PDFContext T W) : Prop := ∀ f ∈ ctx, f.far.Sums

theorem length_le_card (ctx : PDFContext T W) (child : Option ℕ) :
    ctx.length ≤ Multiset.card (cells ctx child) := by
  induction ctx generalizing child with
  | nil => exact Nat.zero_le _
  | cons f ctx ih =>
    rw [cells, Multiset.card_cons, Multiset.card_add, List.length_cons]
    have hrest := ih (some f.x.place)
    omega

end PDFContext

theorem PDFTree.size_eq_card (t : PDFTree T W) (parent : Option ℕ) :
    t.size = Multiset.card (t.cells parent) := by
  induction t generalizing parent with
  | nil => rfl
  | node x l r ihl ihr =>
    rw [size, cells, Multiset.card_cons, Multiset.card_add, ← ihl, ← ihr]

namespace DiscretePDF

/-- The heap has the tree that is cut into `ctx` and `t`, and the cells `R` besides. -/
structure Has (d : DiscretePDF T W) (R : Multiset (ℕ × PDFNode T W)) (ctx : PDFContext T W)
    (t : PDFTree T W) : Prop where
  m_root : d.m_root = ctx.rootOf t.root
  holds : d.heap.Holds (t.cells ctx.parent + ctx.cells t.root + R)

theorem has_iff {d : DiscretePDF T W} {R : Multiset (ℕ × PDFNode T W)} {ctx : PDFContext T W}
    {t : PDFTree T W} : d.Has R ctx t ↔ d.Has R [] (ctx.plug t) := by
  have hcells : (ctx.plug t).cells none + PDFContext.cells [] (ctx.plug t).root
      = t.cells ctx.parent + ctx.cells t.root := by
    rw [ctx.cells_plug]
    exact add_zero _
  constructor
  · intro h
    refine ⟨h.m_root.trans (ctx.rootOf_eq t), ?_⟩
    have hholds := h.holds
    rwa [← hcells] at hholds
  · intro h
    refine ⟨h.m_root.trans (ctx.rootOf_eq t).symm, ?_⟩
    have hholds := h.holds
    change d.heap.Holds ((ctx.plug t).cells none + PDFContext.cells [] (ctx.plug t).root + R) at hholds
    rwa [hcells] at hholds

end DiscretePDF

end Xklee
