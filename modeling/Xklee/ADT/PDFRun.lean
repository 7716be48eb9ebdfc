/-
A weighted choice under any operations.

The heap always has a search tree with right sums and a black root (`Good`), whatever the
colours below are. The colours are those of a red-black tree as long as no `remove` takes out a
black node without children.
-/
import Mathlib.Algebra.Field.Rat
import Xklee.ADT.PDFRedBlack
import Xklee.Data.Run

set_option autoImplicit false

namespace Xklee

namespace DiscretePDF

variable {T W : Type}

/-! ## The colours on the heap -/

/-- The number of black nodes on every way down from `n`, if it is the same on all of them and
no red node has a red child. -/
def blackHeight (d : DiscretePDF T W) : ℕ → Option ℕ → Option ℕ
  | _, none => some 0
  | 0, some _ => none
  | fuel + 1, some n => do
      let node ← d.node n
      let left ← d.blackHeight fuel node.left
      let right ← d.blackHeight fuel node.right
      let leftIsBlack ← d.childIsBlack node.left
      let rightIsBlack ← d.childIsBlack node.right
      if left ≠ right then none
      else if node.m_mark then (if leftIsBlack && rightIsBlack then some left else none)
      else some (left + 1)

/-- The number of nodes on the longest way down from `n`. -/
def depth (d : DiscretePDF T W) : ℕ → Option ℕ → ℕ
  | 0, _ => 0
  | fuel + 1, n =>
      match n.bind d.node with
      | none => 0
      | some node => max (d.depth fuel node.left) (d.depth fuel node.right) + 1

/-- The number of nodes below `n`, which is that of the items. -/
def size (d : DiscretePDF T W) : ℕ → Option ℕ → ℕ
  | 0, _ => 0
  | fuel + 1, n =>
      match n.bind d.node with
      | none => 0
      | some node => d.size fuel node.left + d.size fuel node.right + 1

/-- No red node has a red child, every way from the root to a missing child has the same number
of black nodes, and so the depth is logarithmic in the number of items. -/
structure IsRedBlack (d : DiscretePDF T W) : Prop where
  colours : ∃ k, d.blackHeight d.fuel d.m_root = some k
  depth : 2 ^ d.depth d.fuel d.m_root ≤ (d.size d.fuel d.m_root + 1) ^ 2

section Heap

variable {d : DiscretePDF T W} {R : Multiset (ℕ × PDFNode T W)} {ctx : PDFContext T W}
  {t : PDFTree T W} {fuel : ℕ}

theorem blackHeight_has (h : d.Has R ctx t) (hfuel : t.size ≤ fuel) (k : ℕ) :
    d.blackHeight fuel t.root = some k ↔ t.RedBlack k := by
  induction t generalizing fuel ctx k with
  | nil =>
    have hheight : d.blackHeight fuel none = some 0 := by
      cases fuel <;> rfl
    rw [PDFTree.root, hheight, PDFTree.RedBlack, Option.some.injEq]
    exact eq_comm
  | node x l r ihl ihr =>
    rw [PDFTree.size] at hfuel
    obtain ⟨fuel, rfl⟩ : ∃ m, fuel = m + 1 := ⟨fuel - 1, by omega⟩
    have hl : d.Has R (⟨true, x, r⟩ :: ctx) l := has_cons.mpr h
    have hr : d.Has R (⟨false, x, l⟩ :: ctx) r := has_cons.mpr h
    have hleft := ihl hl (show l.size ≤ fuel by omega)
    have hright := ihr hr (show r.size ≤ fuel by omega)
    show ((d.node x.place).bind fun node => (d.blackHeight fuel node.left).bind fun left =>
      (d.blackHeight fuel node.right).bind fun right => (d.childIsBlack node.left).bind
        fun leftIsBlack => (d.childIsBlack node.right).bind fun rightIsBlack =>
          if left ≠ right then none
          else if node.m_mark then (if leftIsBlack && rightIsBlack then some left else none)
          else some (left + 1)) = some k ↔ _
    rw [h.node_eq, Option.bind_some, childIsBlack_has hl, childIsBlack_has hr]
    simp only [Option.bind_some]
    cases hlk : d.blackHeight fuel l.root with
    | none =>
      -- no black height on the left, none of the whole
      refine iff_of_false (by simp) (fun hnode => ?_)
      have hnone : ∀ j, ¬l.RedBlack j := fun j hj => by
        have hsome := (hleft j).mpr hj
        rw [hlk] at hsome
        exact absurd hsome (by simp)
      cases hx : x.mark with
      | true => exact hnone k ((PDFTree.redBlack_red hx).mp hnode).2.1
      | false =>
        obtain ⟨j, -, hj, -⟩ := (PDFTree.redBlack_black hx).mp hnode
        exact hnone j hj
    | some left =>
      have hl' : ∀ j, l.RedBlack j ↔ left = j := fun j => by
        rw [← hleft j, hlk, Option.some.injEq]
      cases hrk : d.blackHeight fuel r.root with
      | none =>
        refine iff_of_false (by simp) (fun hnode => ?_)
        have hnone : ∀ j, ¬r.RedBlack j := fun j hj => by
          have hsome := (hright j).mpr hj
          rw [hrk] at hsome
          exact absurd hsome (by simp)
        cases hx : x.mark with
        | true => exact hnone k ((PDFTree.redBlack_red hx).mp hnode).2.2
        | false =>
          obtain ⟨j, -, -, hj⟩ := (PDFTree.redBlack_black hx).mp hnode
          exact hnone j hj
      | some right =>
        have hr' : ∀ j, r.RedBlack j ↔ right = j := fun j => by
          rw [← hright j, hrk, Option.some.injEq]
        rw [PDFTree.RedBlack]
        simp only [Option.bind_some, hl', hr']
        by_cases heq : left = right
        · subst heq
          rw [if_neg (by simp)]
          cases x.mark with
          | true => cases l.mark <;> cases r.mark <;> simp
          | false => simp [eq_comm]
        · rw [if_pos heq]
          refine iff_of_false (by simp) ?_
          split
          next => exact fun h => heq (h.2.1.trans h.2.2.symm)
          next =>
            rintro ⟨j, -, hlj, hrj⟩
            exact heq (hlj.trans hrj.symm)

theorem depth_has (h : d.Has R ctx t) (hfuel : t.size ≤ fuel) :
    d.depth fuel t.root = t.depth ∧ d.size fuel t.root = t.size := by
  induction t generalizing fuel ctx with
  | nil =>
    cases fuel with
    | zero => exact ⟨rfl, rfl⟩
    | succ fuel => exact ⟨rfl, rfl⟩
  | node x l r ihl ihr =>
    rw [PDFTree.size] at hfuel
    obtain ⟨fuel, rfl⟩ : ∃ m, fuel = m + 1 := ⟨fuel - 1, by omega⟩
    have hl : d.Has R (⟨true, x, r⟩ :: ctx) l := has_cons.mpr h
    have hr : d.Has R (⟨false, x, l⟩ :: ctx) r := has_cons.mpr h
    obtain ⟨hld, hls⟩ := ihl hl (show l.size ≤ fuel by omega)
    obtain ⟨hrd, hrs⟩ := ihr hr (show r.size ≤ fuel by omega)
    have hnode : (PDFTree.node x l r).root.bind d.node
        = some ⟨x.mark, ctx.parent, l.root, r.root, x.key, x.weight, x.sum⟩ := h.node_eq
    rw [DiscretePDF.depth, DiscretePDF.size, hnode]
    dsimp only
    rw [hld, hrd, hls, hrs, PDFTree.depth, PDFTree.size]
    exact ⟨rfl, rfl⟩

/-- The colours on the heap are those of the tree on it. -/
theorem isRedBlack_has (h : d.Has R [] t) (hcolours : PDFContext.Colours [] t) : d.IsRedBlack := by
  have hfuel : t.size ≤ d.fuel := by
    have hlength := h.length_le
    unfold DiscretePDF.fuel
    omega
  have hroot : d.m_root = t.root := h.m_root
  obtain ⟨k, hred, hmark⟩ := hcolours
  obtain ⟨hdepth, hsize⟩ := depth_has h hfuel
  constructor
  · rw [hroot]
    exact ⟨k, (blackHeight_has h hfuel k).mpr hred⟩
  · rw [hroot, hdepth, hsize]
    exact hred.two_pow_depth_le hmark

end Heap

/-! ## One operation -/

/-- The operations that change a weighted choice. -/
inductive Op (T W : Type)
  | insert (item : T) (weight : W)
  | remove (item : T)
  | update (item : T) (weight : W)
deriving DecidableEq

/-- The heap has exactly this tree, which is a search tree with right sums and a black root. -/
structure Good [LinearOrder T] [Add W] [Zero W] (d : DiscretePDF T W) (t : PDFTree T W) :
    Prop where
  holds : d.Has 0 [] t
  sums : t.Sums
  root : t.mark = false
  increasing : Increasing t.entries

section Operations

variable [Field W] [LinearOrder T] {d : DiscretePDF T W} {t : PDFTree T W} {item : T} {weight : W}

/-- `assert`: what is inserted is not in the tree, and what is removed or updated is. -/
def Allowed (d : DiscretePDF T W) : Op T W → Prop
  | .insert item _ => d.inTree item = some false
  | .remove item => d.inTree item = some true
  | .update item _ => d.inTree item = some true

instance (d : DiscretePDF T W) (op : Op T W) : Decidable (d.Allowed op) :=
  match op with
  | .insert item _ => inferInstanceAs (Decidable (d.inTree item = some false))
  | .remove item => inferInstanceAs (Decidable (d.inTree item = some true))
  | .update item _ => inferInstanceAs (Decidable (d.inTree item = some true))

def apply (d : DiscretePDF T W) : Op T W → Option (Unit × DiscretePDF T W)
  | .insert item weight => (d.insert item weight).map ((), ·)
  | .remove item => (d.remove item).map ((), ·)
  | .update item weight => (d.update item weight).map ((), ·)

theorem empty_good : (empty : DiscretePDF T W).Good .nil where
  holds := ⟨rfl, Heap.holds_empty⟩
  sums := trivial
  root := rfl
  increasing := List.Pairwise.nil

/-- `lookup` finds the entry of an item. -/
theorem Good.lookup (h : d.Good t) (item : T) :
    ∃ (ctx : PDFContext T W) (t' : PDFTree T W), d.lookup item = some ctx.place
      ∧ ctx.plug t' = t ∧ d.Has 0 ctx t' ∧ Way item t.entries ctx t'
      ∧ (t' = .nil ∨ ∃ x l r, t' = .node x l r ∧ x.key = item) := by
  obtain ⟨ctx, t', hlookup, hplug, hway, hfound⟩ :=
    lookup_has h.holds h.root h.increasing
  exact ⟨ctx, t', hlookup, hplug, h.holds.of_plug_eq hplug, hway, hfound⟩

theorem Good.inTree (h : d.Good t) (item : T) :
    ∃ found, d.inTree item = some found ∧ (found = true ↔ ∃ e ∈ t.entries, e.1 = item) := by
  obtain ⟨ctx, t', hlookup, -, hhas, hway, rfl | ⟨x, l, r, rfl, hkey⟩⟩ := h.lookup item
  · refine ⟨false, ?_, iff_of_false (by simp) ?_⟩
    · rw [DiscretePDF.inTree, hlookup, Option.bind_eq_bind, Option.bind_some, load_place hhas]
      rfl
    · rintro ⟨e, he, heq⟩
      rw [← hway.entries, PDFContext.entries_plug, PDFTree.entries, List.append_nil] at he
      rcases List.mem_append.mp he with he | he
      · exact absurd heq (hway.fits.before e he).ne
      · exact absurd heq (hway.fits.after e he).ne'
  · refine ⟨true, ?_, iff_of_true rfl ⟨(x.key, x.weight), ?_, hkey⟩⟩
    · rw [DiscretePDF.inTree, hlookup, Option.bind_eq_bind, Option.bind_some, load_place hhas]
      rfl
    · rw [← hway.entries, PDFContext.entries_plug, PDFTree.entries]
      simp

theorem Good.absent (h : d.Good t) (hout : d.inTree item = some false) :
    ∀ e ∈ t.entries, e.1 ≠ item := by
  obtain ⟨found, hfound, hiff⟩ := h.inTree item
  rw [hout] at hfound
  obtain rfl := Option.some.inj hfound
  intro e he heq
  exact absurd (hiff.mpr ⟨e, he, heq⟩) (by simp)

theorem Good.present (h : d.Good t) (hin : d.inTree item = some true) :
    ∃ e ∈ t.entries, e.1 = item := by
  obtain ⟨found, hfound, hiff⟩ := h.inTree item
  rw [hin] at hfound
  obtain rfl := Option.some.inj hfound
  exact hiff.mp rfl

omit [Field W] in
theorem increasing_insert {before after : List (T × W)} (h : Increasing (before ++ after))
    (hbefore : ∀ e ∈ before, e.1 < item) (hafter : ∀ e ∈ after, item < e.1) :
    Increasing (before ++ (item, weight) :: after) := by
  obtain ⟨hb, ha, hcross⟩ := List.pairwise_append.mp h
  refine List.pairwise_append.mpr ⟨hb, List.pairwise_cons.mpr ⟨hafter, ha⟩, ?_⟩
  intro e he e' he'
  rcases List.mem_cons.mp he' with rfl | he'
  · exact hbefore e he
  · exact hcross e he e' he'

/-- `insert` adds one entry and keeps the colours. -/
theorem Good.insert (h : d.Good t) (habsent : ∀ e ∈ t.entries, e.1 ≠ item) (weight : W) :
    ∃ d' t', d.insert item weight = some d' ∧ d'.Good t'
      ∧ Without item t'.entries t.entries
      ∧ (∀ weight', (item, weight') ∈ t'.entries → weight' = weight)
      ∧ (PDFContext.Colours [] t → PDFContext.Colours [] t') := by
  obtain ⟨d', t', ctx, ctx', n, x', l', r', hd', h', hsums, hway, hins⟩ :=
    insert_has h.holds h.sums h.root h.increasing habsent weight
  have hbefore : t.entries = ctx.before ++ ctx.after := by
    rw [← hway.entries, PDFContext.entries_plug, PDFTree.entries, List.append_nil]
  have hentries : t'.entries = ctx.before ++ (item, weight) :: ctx.after := by
    rw [← PDFTree.entries_bare t', hins.bare, PDFTree.entries_bare, hins.splits.entries,
      PDFContext.entries_plug]
    simp [PDFTree.entries, newLabel]
  have hroot : t'.mark = false := by
    rw [← PDFTree.mark_bare, hins.bare, PDFTree.mark_bare, PDFContext.mark_plug]
    apply hins.splits.rootMark
    exact hway.root
  have hincreasing := h.increasing
  rw [hbefore] at hincreasing
  refine ⟨d', t', hd', ⟨h', hsums, hroot, ?_⟩, ⟨ctx.before, weight, ctx.after, hentries, hbefore⟩, ?_,
    hins.colours h.increasing⟩
  · rw [hentries]
    exact increasing_insert hincreasing hway.fits.before hway.fits.after
  · intro weight' hmem
    rw [hentries] at hmem
    rcases List.mem_append.mp hmem with hmem | hmem
    · exact absurd rfl (hway.fits.before _ hmem).ne
    · rcases List.mem_cons.mp hmem with heq | hmem
      · exact congrArg Prod.snd heq
      · exact absurd rfl (hway.fits.after _ hmem).ne

/-- `remove` is about to take out a black node without children, other than the root. -/
def removesBlackLeaf (d : DiscretePDF T W) (item : T) : Bool :=
  match (d.victim item).bind d.node with
  | none => false
  | some node => !node.m_mark && node.left.isNone && node.right.isNone && node.parent.isSome

/-- `remove` takes one entry away, and keeps the colours unless it takes out a black node
without children. -/
theorem Good.remove (h : d.Good t) (hpresent : ∃ e ∈ t.entries, e.1 = item) :
    ∃ d' t', d.remove item = some d' ∧ d'.Good t' ∧ Without item t.entries t'.entries
      ∧ (PDFContext.Colours [] t →
        (PDFContext.Colours [] t' ↔ d.removesBlackLeaf item = false)) := by
  obtain ⟨d', t', ctx, y, a, b, c, ctx', mark, hvictim, hnode, hd', h', hsums, hroot, hwithout,
    hrem⟩ := remove_has h.holds h.sums h.root h.increasing hpresent
  refine ⟨d', t', hd', ⟨h', hsums, hroot, ?_⟩, hwithout, fun hcolours => ?_⟩
  · obtain ⟨before, weight, after, hentries, hrest⟩ := hwithout
    have hincreasing := h.increasing
    rw [hentries] at hincreasing
    rw [hrest]
    exact hincreasing.sublist (List.Sublist.append_left (List.sublist_cons_self _ _) before)
  · have hleaf : d.removesBlackLeaf item
        = (!y.mark && a.root.isNone && b.root.isNone && (PDFContext.parent ctx).isSome) := by
      unfold removesBlackLeaf
      rw [hvictim, Option.bind_some, hnode]
    have hroots : ∀ u : PDFTree T W, u.root.isNone = true ↔ u = .nil := by
      intro u
      rw [Option.isNone_iff_eq_none, root_eq_none_iff]
    have hchild : (a.root.isNone = true ∧ b.root.isNone = true) ↔ c = .nil := by
      rw [hroots, hroots]
      rcases hrem.child with ⟨ha, hcb⟩ | ⟨hb, hca⟩
      · rw [hcb, and_iff_right ha]
      · rw [hca, and_iff_left hb]
    have hparent : (PDFContext.parent ctx).isSome = true ↔ ctx ≠ [] := by
      cases ctx with
      | nil => exact iff_of_false (by simp [PDFContext.parent]) (by simp)
      | cons f ctx => exact iff_of_true rfl (by simp)
    have hiff : d.removesBlackLeaf item = true ↔ y.mark = false ∧ c = .nil ∧ ctx ≠ [] := by
      rw [hleaf, Bool.and_eq_true, Bool.and_eq_true, Bool.and_eq_true, Bool.not_eq_true', hparent,
        and_assoc, and_assoc, ← hchild, and_assoc]
    rw [hrem.colours_iff hcolours, ← hiff, Bool.not_eq_true]

/-- `update` changes one weight only. -/
theorem Good.update (h : d.Good t) (hpresent : ∃ e ∈ t.entries, e.1 = item) (weight : W) :
    ∃ d' t' rest, d.update item weight = some d' ∧ d'.Good t'
      ∧ Without item t.entries rest ∧ Without item t'.entries rest
      ∧ (∀ weight', (item, weight') ∈ t'.entries → weight' = weight)
      ∧ (PDFContext.Colours [] t → PDFContext.Colours [] t') := by
  obtain ⟨ctx, t₀, hlookup, hplug, hhas, hway, rfl | ⟨x, l, r, rfl, hkey⟩⟩ := h.lookup item
  · exfalso
    obtain ⟨e, he, heq⟩ := hpresent
    rw [← hway.entries, PDFContext.entries_plug, PDFTree.entries, List.append_nil] at he
    rcases List.mem_append.mp he with he | he
    · exact absurd heq (hway.fits.before e he).ne
    · exact absurd heq (hway.fits.after e he).ne'
  · have hcut : d.Has 0 ctx ((⟨true, x, r⟩ : PDFFrame T W).plug l) := hhas
    obtain ⟨d₁, hd₁, h₁⟩ := relabel_has hcut { x with weight := weight }
      (fun node => { node with weight := weight }) (fun _ _ _ => rfl) rfl
    have hsums := h.sums
    rw [← hplug] at hsums
    obtain ⟨hctx, -, hl, hr⟩ := farSums_of_plug hsums
    obtain ⟨d₂, t', hd₂, h₂, hsums₂, hbare⟩ := propogateSumsUp_has h₁ hl hr hctx
    have hentries : t.entries
        = (ctx.before ++ l.entries) ++ (item, x.weight) :: (r.entries ++ ctx.after) := by
      rw [← hplug, PDFContext.entries_plug, PDFTree.entries, ← hkey]
      simp
    have hentries' : t'.entries
        = (ctx.before ++ l.entries) ++ (item, weight) :: (r.entries ++ ctx.after) := by
      rw [← PDFTree.entries_bare t', hbare, PDFTree.entries_bare, PDFContext.entries_plug, ← hkey]
      simp [PDFFrame.plug, PDFTree.entries]
    have hskeleton : (ctx.plug ((⟨true, { x with weight := weight }, r⟩ :
        PDFFrame T W).plug l)).skeleton = t.skeleton := by
      rw [← hplug]
      exact PDFContext.skeleton_plug ctx rfl
    have hroot : t'.mark = false := by
      rw [← PDFTree.mark_bare, hbare, PDFTree.mark_bare, ← PDFTree.mark_skeleton, hskeleton,
        PDFTree.mark_skeleton]
      exact h.root
    have hincreasing := h.increasing
    rw [hentries] at hincreasing
    obtain ⟨hb, hcons, hcross⟩ := List.pairwise_append.mp hincreasing
    obtain ⟨hitem, ha⟩ := List.pairwise_cons.mp hcons
    have hbefore : ∀ e ∈ ctx.before ++ l.entries, e.1 < item := fun e he =>
      hcross e he (item, x.weight) List.mem_cons_self
    have hrest : Increasing ((ctx.before ++ l.entries) ++ (r.entries ++ ctx.after)) :=
      List.pairwise_append.mpr
        ⟨hb, ha, fun e he e' he' => hcross e he e' (List.mem_cons_of_mem _ he')⟩
    refine ⟨d₂, t', _, ?_, ⟨h₂, hsums₂, hroot, ?_⟩, ⟨_, _, _, hentries, rfl⟩,
      ⟨_, _, _, hentries', rfl⟩, ?_, ?_⟩
    · rw [DiscretePDF.update, hlookup, Option.bind_eq_bind, Option.bind_some, load_place hhas]
      show (d.modify x.place _).bind _ = _
      rw [hd₁, Option.bind_some]
      exact hd₂
    · rw [hentries']
      exact increasing_insert hrest hbefore hitem
    · intro weight' hmem
      rw [hentries'] at hmem
      rcases List.mem_append.mp hmem with hmem | hmem
      · exact absurd rfl (hbefore _ hmem).ne
      · rcases List.mem_cons.mp hmem with heq | hmem
        · exact congrArg Prod.snd heq
        · exact absurd rfl (hitem _ hmem).ne
    · intro hcolours
      rw [colours_of_bare hbare, colours_of_skeleton hskeleton]
      exact hcolours

/-! ## Runs -/

/-- What an operation does to the weights of the items. -/
def Op.effect (op : Op T W) (weights : T → Option W) : T → Option W :=
  match op with
  | .insert item weight => Function.update weights item (some weight)
  | .remove item => Function.update weights item none
  | .update item weight => Function.update weights item (some weight)

/-- The entries are the weights of the items that have one. -/
def Lists (entries : List (T × W)) (weights : T → Option W) : Prop :=
  ∀ item weight, (item, weight) ∈ entries ↔ weights item = some weight

section Lists

omit [Field W]

variable {longer shorter : List (T × W)} {weights : T → Option W}

theorem Without.mem_iff (h : Without item longer shorter) (hincreasing : Increasing longer)
    {e : T × W} : e ∈ shorter ↔ e ∈ longer ∧ e.1 ≠ item := by
  obtain ⟨before, weight, after, rfl, rfl⟩ := h
  obtain ⟨-, hcons, hcross⟩ := List.pairwise_append.mp hincreasing
  obtain ⟨hitem, -⟩ := List.pairwise_cons.mp hcons
  rw [List.mem_append, List.mem_append, List.mem_cons]
  constructor
  · rintro (he | he)
    · exact ⟨.inl he, (hcross e he (item, weight) List.mem_cons_self).ne⟩
    · exact ⟨.inr (.inr he), (hitem e he).ne'⟩
  · rintro ⟨he | rfl | he, hne⟩
    · exact .inl he
    · exact absurd rfl hne
    · exact .inr he

theorem Lists.remove (h : Lists longer weights) (hwithout : Without item longer shorter)
    (hincreasing : Increasing longer) : Lists shorter (Function.update weights item none) := by
  intro item' weight'
  rw [hwithout.mem_iff hincreasing, h item' weight']
  by_cases heq : item' = item
  · rw [heq, Function.update_self]
    exact iff_of_false (fun h => h.2 rfl) (by simp)
  · rw [Function.update_of_ne heq]
    exact and_iff_left heq

theorem Lists.insert (h : Lists shorter weights) (hwithout : Without item longer shorter)
    (hincreasing : Increasing longer)
    (hweight : ∀ weight', (item, weight') ∈ longer → weight' = weight) :
    Lists longer (Function.update weights item (some weight)) := by
  intro item' weight'
  by_cases heq : item' = item
  · subst heq
    rw [Function.update_self, Option.some.injEq]
    obtain ⟨before, weight₀, after, hlonger, -⟩ := hwithout
    have hmem : (item', weight₀) ∈ longer := by
      rw [hlonger]
      simp
    have hweight₀ := hweight weight₀ hmem
    constructor
    · intro h
      exact (hweight weight' h).symm
    · rintro rfl
      rw [← hweight₀]
      exact hmem
  · have hmem : (item', weight') ∈ longer ↔ (item', weight') ∈ shorter := by
      rw [hwithout.mem_iff hincreasing]
      exact (and_iff_left heq).symm
    rw [Function.update_of_ne heq, hmem]
    exact h item' weight'

end Lists

/-- An operation does not take out a black node without children, other than the root. -/
def KeepsBalance (d : DiscretePDF T W) : Op T W → Prop
  | .remove item => d.removesBlackLeaf item = false
  | _ => True

instance (d : DiscretePDF T W) (op : Op T W) : Decidable (d.KeepsBalance op) :=
  match op with
  | .insert _ _ => inferInstanceAs (Decidable True)
  | .remove item => inferInstanceAs (Decidable (d.removesBlackLeaf item = false))
  | .update _ _ => inferInstanceAs (Decidable True)

/-- An operation that is allowed does what it says, and keeps the colours if it keeps the
balance. -/
theorem Good.apply (h : d.Good t) {op : Op T W} (hop : d.Allowed op) :
    ∃ d' t', d.apply op = some ((), d') ∧ d'.Good t'
      ∧ (∀ weights, Lists t.entries weights → Lists t'.entries (op.effect weights))
      ∧ (d.KeepsBalance op → PDFContext.Colours [] t → PDFContext.Colours [] t') := by
  cases op with
  | insert item weight =>
    obtain ⟨d', t', hd', h', hwithout, hweight, hcolours⟩ := h.insert (h.absent hop) weight
    refine ⟨d', t', congrArg (Option.map _) hd', h', fun weights hlists => ?_, fun _ => hcolours⟩
    exact hlists.insert hwithout h'.increasing hweight
  | remove item =>
    obtain ⟨d', t', hd', h', hwithout, hcolours⟩ := h.remove (h.present hop)
    refine ⟨d', t', congrArg (Option.map _) hd', h', fun weights hlists => ?_, fun hkeeps hc => ?_⟩
    · exact hlists.remove hwithout h.increasing
    · exact (hcolours hc).mpr hkeeps
  | update item weight =>
    obtain ⟨d', t', rest, hd', h', hwithout, hwithout', hweight, hcolours⟩ :=
      h.update (h.present hop) weight
    refine ⟨d', t', congrArg (Option.map _) hd', h', fun weights hlists => ?_, fun _ => hcolours⟩
    have hrest : Lists rest (Function.update weights item none) :=
      hlists.remove hwithout h.increasing
    have hnew := hrest.insert hwithout' h'.increasing hweight
    rw [Function.update_idem] at hnew
    exact hnew

/-- A weighted choice stays a red-black tree as long as no `remove` takes out a black node
without children, other than the root; and every operation that is allowed succeeds. -/
theorem reaches_isRedBlack
    (h : Reaches apply (fun d op => d.Allowed op ∧ d.KeepsBalance op) empty d) :
    d.IsRedBlack ∧ ∀ op, d.Allowed op → ∃ d', d.apply op = some ((), d') := by
  let Inv := fun d : DiscretePDF T W => ∃ t, d.Good t ∧ PDFContext.Colours [] t
  have hinv : Inv d := by
    apply h.invariant
    · show Inv empty
      exact ⟨.nil, empty_good, 0, rfl, rfl⟩
    · rintro d op ⟨⟩ d' ⟨t, hgood, hcolours⟩ ⟨hop, hkeeps⟩ heq
      obtain ⟨d₁, t', hd₁, hgood', -, hcolours'⟩ := hgood.apply hop
      rw [hd₁] at heq
      obtain rfl : d₁ = d' := by simpa using heq
      exact ⟨t', hgood', hcolours' hkeeps hcolours⟩
  obtain ⟨t, hgood, hcolours⟩ := hinv
  refine ⟨isRedBlack_has hgood.holds hcolours, fun op hop => ?_⟩
  obtain ⟨d', -, hd', -⟩ := hgood.apply hop
  exact ⟨d', hd'⟩

end Operations

/-- With the items 1 to 4 inserted in this order, 4 is a red leaf, and its removal keeps the
balance. -/
theorem reaches_isRedBlack_remove_four : ∃ d : DiscretePDF ℕ ℚ,
    d.inTree 3 = some true ∧ d.inTree 4 = some false ∧ d.IsRedBlack := by
  have h₀ : Reaches apply (fun d op => d.Allowed op ∧ d.KeepsBalance op)
      (empty : DiscretePDF ℕ ℚ) empty := .init
  have h₁ := h₀.get (c := .insert 1 1) (by decide +kernel) (by decide +kernel)
  have h₂ := h₁.get (c := .insert 2 1) (by decide +kernel) (by decide +kernel)
  have h₃ := h₂.get (c := .insert 3 1) (by decide +kernel) (by decide +kernel)
  have h₄ := h₃.get (c := .insert 4 1) (by decide +kernel) (by decide +kernel)
  have h₅ := h₄.get (c := .remove 4) (by decide +kernel) (by decide +kernel)
  exact ⟨_, by decide +kernel, by decide +kernel, (reaches_isRedBlack h₅).1⟩

/-- But 1 is a black one: a way with fewer black nodes is left behind. -/
theorem not_isRedBlack_remove_one :
    ¬∀ d : DiscretePDF ℕ ℚ, Reaches apply Allowed empty d → d.IsRedBlack := by
  intro hall
  have h₀ : Reaches apply Allowed (empty : DiscretePDF ℕ ℚ) empty := .init
  have h₁ := h₀.get (c := .insert 1 1) (by decide +kernel) (by decide +kernel)
  have h₂ := h₁.get (c := .insert 2 1) (by decide +kernel) (by decide +kernel)
  have h₃ := h₂.get (c := .insert 3 1) (by decide +kernel) (by decide +kernel)
  have h₄ := h₃.get (c := .insert 4 1) (by decide +kernel) (by decide +kernel)
  have h₅ := h₄.get (c := .remove 1) (by decide +kernel) (by decide +kernel)
  obtain ⟨k, hk⟩ := (hall _ h₅).colours
  exact absurd (Option.isSome_of_eq_some hk) (by decide +kernel)

end DiscretePDF

end Xklee
