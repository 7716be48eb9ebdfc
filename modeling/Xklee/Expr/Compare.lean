/-
The order of expressions: `Expr::compare` in `lib/Expr/Expr.cpp` and `UpdateList::compare` in
`lib/Expr/Updates.cpp`.

The source compares objects in memory. An expression object holds pointers to its kids, a read
holds a pointer to its root array and one to its newest update node, and a node points to the next
older one. Objects are shared: two pointers that are equal need no comparison, and a set of pairs of
pointers remembers which objects have been found equal. A memory here says what object is at each
address and which expression that object is; an object that is a part of itself is no expression, so
there are no cycles.

Without pointers, hash values cached in objects, and the set, what is left is a lexicographic order
of trees: kinds first, then hashes, then what is particular to the kind, then the kids, where the
indices and values of update nodes come before the index of a read. `compareTo_yields` says that the
code computes this order from every set of pairs that are equal, and the laws of the order are those
of `TreeOrder`.
-/
import Xklee.Data.HiddenState
import Xklee.Data.TreeOrder
import Xklee.Expr.Reads

set_option autoImplicit false

namespace Xklee

/-! ## Kinds and hash values -/

/-- `Expr::Kind`, as numbered by the enumeration. -/
def BinaryKind.number : BinaryKind → ℕ
  | .Add => 9 | .Sub => 10 | .Mul => 11 | .UDiv => 12 | .SDiv => 13 | .URem => 14 | .SRem => 15
  | .And => 17 | .Or => 18 | .Xor => 19 | .Shl => 20 | .LShr => 21 | .AShr => 22

def CmpKind.number : CmpKind → ℕ
  | .Eq => 23 | .Ne => 24 | .Ult => 25 | .Ule => 26 | .Ugt => 27 | .Uge => 28
  | .Slt => 29 | .Sle => 30 | .Sgt => 31 | .Sge => 32

def CastKind.number : CastKind → ℕ
  | .ZExt => 7 | .SExt => 8

/-- `Expr::getKind`. The number 2 is not in use. -/
def Expr.getKind : Expr → ℕ
  | .Constant _ => 0
  | .NotOptimized _ => 1
  | .Read _ _ => 3
  | .Select _ _ _ => 4
  | .Concat _ _ => 5
  | .Extract _ _ _ => 6
  | .Cast k _ _ => k.number
  | .Not _ => 16
  | .Binary k _ _ => k.number
  | .Cmp k _ _ => k.number

theorem BinaryKind.number_injective : Function.Injective BinaryKind.number := by
  intro k l h
  cases k <;> cases l <;> first | rfl | exact absurd h (by decide)

theorem CmpKind.number_injective : Function.Injective CmpKind.number := by
  intro k l h
  cases k <;> cases l <;> first | rfl | exact absurd h (by decide)

theorem CastKind.number_injective : Function.Injective CastKind.number := by
  intro k l h
  cases k <;> cases l <;> first | rfl | exact absurd h (by decide)

/-- `Expr::MAGIC_HASH_CONSTANT`. -/
abbrev MAGIC_HASH_CONSTANT : BitVec 32 := 39

/-- The bytes of `Array::name`. -/
def KArray.nameBytes (a : KArray) : List ℕ := a.name.toUTF8.data.toList.map UInt8.toNat

/-- The loop over the name in `UpdateList::hash`. A `char` is signed. -/
def KArray.nameHash (a : KArray) : BitVec 32 :=
  a.nameBytes.foldl
    (fun res c => res * MAGIC_HASH_CONSTANT + (BitVec.ofNat 8 c).signExtend 32) 0

/-- `Expr::computeHash` over the hash values of the kids. -/
def computeHash (kind : ℕ) (kids : List (BitVec 32)) : BitVec 32 :=
  kids.foldl (fun res kid => (res <<< 1) ^^^ (kid * MAGIC_HASH_CONSTANT))
    (BitVec.ofNat 32 kind * MAGIC_HASH_CONSTANT)

section Hash

variable (hash_value : APInt → BitVec 32)

mutual

/-- `Expr::hash`: the value `computeHash` stores when the object is allocated. `hash_value` is
LLVM's hash of an `APInt`. -/
def Expr.hash : Expr → BitVec 32
  | .Constant v => hash_value v ^^^ (BitVec.ofNat 32 v.width * MAGIC_HASH_CONSTANT)
  | .NotOptimized e => computeHash 1 [e.hash]
  | .Read ul i => (i.hash * MAGIC_HASH_CONSTANT) ^^^ (ul.array.nameHash ^^^ ul.nodesHash)
  | .Select c t f => computeHash 4 [c.hash, t.hash, f.hash]
  | .Concat l r => computeHash 5 [l.hash, r.hash]
  | .Extract e off w => (BitVec.ofNat 32 off * MAGIC_HASH_CONSTANT) ^^^
      (BitVec.ofNat 32 w * MAGIC_HASH_CONSTANT) ^^^ (e.hash * MAGIC_HASH_CONSTANT)
  | .Cast _ e w => (BitVec.ofNat 32 w * MAGIC_HASH_CONSTANT) ^^^ (e.hash * MAGIC_HASH_CONSTANT)
  | .Not e => e.hash * MAGIC_HASH_CONSTANT * 16
  | .Binary k l r => computeHash k.number [l.hash, r.hash]
  | .Cmp k l r => computeHash k.number [l.hash, r.hash]

/-- `UpdateNode::hash` of the newest node; nothing is mixed in when there is none. -/
def UpdateList.nodesHash : UpdateList → BitVec 32
  | .root _ => 0
  | .extend i v next => i.hash ^^^ v.hash ^^^ next.nodesHash

end

end Hash

/-- `UpdateList::getSize`. -/
def UpdateList.getSize : UpdateList → ℕ
  | .root _ => 0
  | .extend _ _ next => next.getSize + 1

/-! ## Objects -/

/-- An expression object. Its kids, the root of a read and its update nodes are elsewhere. -/
inductive ExprObject where
  | Constant (value : APInt)
  | NotOptimized (src : ℕ)
  | Read (root : KArray) (head : Option ℕ) (index : ℕ)
  | Select (cond trueExpr falseExpr : ℕ)
  | Concat (left right : ℕ)
  | Extract (expr : ℕ) (offset width : ℕ)
  | Cast (kind : CastKind) (src : ℕ) (width : ℕ)
  | Not (expr : ℕ)
  | Binary (kind : BinaryKind) (left right : ℕ)
  | Cmp (kind : CmpKind) (left right : ℕ)

/-- `UpdateNode`. -/
structure UpdateNode where
  index : ℕ
  value : ℕ
  next : Option ℕ

/-- `getKid(0)`, ..., `getKid(getNumKids() - 1)`. -/
def ExprObject.kids : ExprObject → List ℕ
  | .Constant _ => []
  | .NotOptimized e => [e]
  | .Read _ _ i => [i]
  | .Select c t f => [c, t, f]
  | .Concat l r => [l, r]
  | .Extract e _ _ => [e]
  | .Cast _ e _ => [e]
  | .Not e => [e]
  | .Binary _ l r => [l, r]
  | .Cmp _ l r => [l, r]

/-- The expression of an object, when `expr` and `list` say what its pointers lead to. -/
def ExprObject.toExpr (expr : ℕ → Expr) (list : KArray → Option ℕ → UpdateList) :
    ExprObject → Expr
  | .Constant v => .Constant v
  | .NotOptimized e => .NotOptimized (expr e)
  | .Read root head i => .Read (list root head) (expr i)
  | .Select c t f => .Select (expr c) (expr t) (expr f)
  | .Concat l r => .Concat (expr l) (expr r)
  | .Extract e off w => .Extract (expr e) off w
  | .Cast k e w => .Cast k (expr e) w
  | .Not e => .Not (expr e)
  | .Binary k l r => .Binary k (expr l) (expr r)
  | .Cmp k l r => .Cmp k (expr l) (expr r)

theorem ExprObject.kids_toExpr (a : ExprObject) (expr : ℕ → Expr)
    (list : KArray → Option ℕ → UpdateList) : (a.toExpr expr list).kids = a.kids.map expr := by
  cases a <;> rfl

/-- The objects of a run. -/
structure ExprMemory where
  object : ℕ → ExprObject
  node : ℕ → UpdateNode
  /-- Where an array is. Different arrays are at different addresses. -/
  address : KArray → ℕ
  address_injective : Function.Injective address
  /-- LLVM's hash of an `APInt`. -/
  hash_value : APInt → BitVec 32
  /-- The expression that is at an address. -/
  expr : ℕ → Expr
  /-- The update list with this root and newest node. -/
  list : KArray → Option ℕ → UpdateList
  expr_eq : ∀ p, expr p = (object p).toExpr expr list
  list_none : ∀ root, list root none = .root root
  list_some : ∀ root n,
    list root (some n) = .extend (expr (node n).index) (expr (node n).value)
      (list root (node n).next)

/-! ## The comparison -/

/-- `ExprEquivSet`, threaded through a comparison. -/
abbrev EquivM := StateM (Finset (ℕ × ℕ))

open HiddenState (orElse)

namespace ExprMemory

variable (m : ExprMemory)

/-- The pair under which two objects are remembered: the lower address first. -/
def equivPair (p q : ℕ) : ℕ × ℕ := if p < q then (p, q) else (q, p)

section Contents

/-- `Expr::compare(const Expr &)`: the set is a static variable, cleared afterwards, and `compare`
runs on it. -/
def refCompare (compare : ℕ → ℕ → EquivM Ordering) (p q : ℕ) : EquivM Ordering := do
  let r ← compare p q
  modify fun _ => ∅
  pure r

variable (compare : ℕ → ℕ → EquivM Ordering)

/-- `UpdateNode::compare`. -/
def compareUpdateNode (an bn : ℕ) : EquivM Ordering :=
  orElse (refCompare compare (m.node an).index (m.node bn).index)
    (refCompare compare (m.node an).value (m.node bn).value)

/-- The loop of `UpdateList::compare`. It ends with the shorter chain; the first argument is the
length of the left one. -/
def compareNodes : ℕ → Option ℕ → Option ℕ → EquivM Ordering
  | n + 1, some an, some bn =>
      -- exploit shared list structure
      if an = bn then pure .eq
      else orElse (m.compareUpdateNode compare an bn)
        (compareNodes n (m.node an).next (m.node bn).next)
  | _, _, _ => pure .eq

/-- `UpdateList::compare`. -/
def compareUpdates (root : KArray) (head : Option ℕ) (root' : KArray) (head' : Option ℕ) :
    EquivM Ordering :=
  orElse (pure (Ord.compare root.nameBytes root'.nameBytes)) <|
  -- separate objects with the same name
  orElse (pure (Ord.compare (m.address root) (m.address root'))) <|
  orElse (pure (Ord.compare (m.list root head).getSize (m.list root' head').getSize)) <|
  m.compareNodes compare (m.list root head).getSize head head'

/-- `compareContents`, for two objects of one kind. The kinds that do not override it compare
nothing. -/
def compareContents : ExprObject → ExprObject → EquivM Ordering
  | .Constant v, .Constant v' =>
      pure ((Ord.compare v.width v'.width).then (Ord.compare v.toNat v'.toNat))
  | .Read root head _, .Read root' head' _ => m.compareUpdates compare root head root' head'
  | .Extract _ off w, .Extract _ off' w' =>
      pure ((Ord.compare off off').then (Ord.compare w w'))
  | .Cast _ _ w, .Cast _ _ w' => pure (Ord.compare w w')
  | .Not e, .Not e' => do
      -- `expr != eb.expr`, and then once more `expr < eb.expr`
      match ← refCompare compare e e' with
      | .eq => pure .eq
      | _ =>
        match ← refCompare compare e e' with
        | .lt => pure .lt
        | _ => pure .gt
  | _, _ => pure .eq

/-- The loop over the kids. -/
def compareKids : List ℕ → List ℕ → EquivM Ordering
  | p :: ps, q :: qs => orElse (compare p q) (compareKids ps qs)
  | _, _ => pure .eq

/-- What `Expr::compare` does with two objects that are not known to be equal. -/
def compareObjects (p q : ℕ) : EquivM Ordering :=
  orElse (pure (Ord.compare (m.expr p).getKind (m.expr q).getKind)) <|
  orElse (pure (Ord.compare ((m.expr p).hash m.hash_value).toNat
    ((m.expr q).hash m.hash_value).toNat)) <|
  orElse (m.compareContents compare (m.object p) (m.object q)) <|
  orElse (compareKids compare (m.object p).kids (m.object q).kids) <| do
    modify (insert (equivPair p q))
    pure .eq

end Contents

/-- `Expr::compare(const Expr &, ExprEquivSet &)`, down to a depth. -/
def compareTo : ℕ → ℕ → ℕ → EquivM Ordering
  | 0, _, _ => pure .eq
  | n + 1, p, q =>
      if p = q then pure .eq
      else do
        let equivs ← get
        if equivPair p q ∈ equivs then pure .eq
        else m.compareObjects (compareTo n) p q

/-- `Expr::compare(const Expr &)`. The depth is that of the left expression. -/
def compare (p q : ℕ) : Ordering :=
  ((refCompare (m.compareTo ((m.expr p).deep.length + 1)) p q).run ∅).1

end ExprMemory

/-! ## The order of trees -/

/-- What is compared at a node after kinds and hashes, each as numbers. -/
def Expr.contents (address : KArray → ℕ) : Expr → List (List ℕ)
  | .Constant v => [[v.width, v.toNat]]
  | .Read ul _ => [ul.array.nameBytes, [address ul.array, ul.getSize]]
  | .Extract _ off w => [[off, w]]
  | .Cast _ _ w => [[w]]
  | _ => []

/-- The expressions below a node, in the order in which they are compared. -/
def Expr.compared : Expr → List Expr
  | .Read ul i => ul.exprs ++ [i]
  | e => e.kids

/-- The comparison of two nodes without what is below them. -/
def Expr.compareNode (address : KArray → ℕ) (hash_value : APInt → BitVec 32) :
    Expr → Expr → Ordering :=
  compareLex (compareOn Expr.getKind) <|
    compareLex (compareOn fun e => (e.hash hash_value).toNat) (compareOn (Expr.contents address))

instance (address : KArray → ℕ) (hash_value : APInt → BitVec 32) :
    Std.TransCmp (Expr.compareNode address hash_value) := by
  unfold Expr.compareNode
  infer_instance

theorem Expr.mem_compared_iff {e k : Expr} : k ∈ e.compared ↔ k ∈ e.parts := by
  cases e with
  | Read ul i => simp [Expr.compared, Expr.parts, or_comm]
  | _ => exact Iff.rfl

/-- What is below a node holds fewer expressions. -/
theorem Expr.deep_length_lt {e k : Expr} (hk : k ∈ e.parts) : k.deep.length < e.deep.length := by
  rw [e.deep_eq, List.length_cons, List.length_flatMap]
  exact Nat.lt_succ_of_le (List.le_sum_of_mem (List.mem_map.mpr ⟨k, hk, rfl⟩))

theorem Expr.deep_compared_lt (e : Expr) : ∀ k ∈ e.compared, k.deep.length < e.deep.length :=
  fun _ hk => Expr.deep_length_lt (Expr.mem_compared_iff.mp hk)

/-- An update list is its root and what its nodes hold. -/
theorem UpdateList.eq_of_exprs {ul ul' : UpdateList} (harray : ul.array = ul'.array)
    (hexprs : ul.exprs = ul'.exprs) : ul = ul' := by
  induction ul using UpdateList.nodeInduction generalizing ul' with
  | root a =>
    cases ul' with
    | root a' => rw [show a = a' from harray]
    | extend i v next => exact absurd hexprs (by simp [UpdateList.exprs])
  | extend i v next ih =>
    cases ul' with
    | root a' => exact absurd hexprs (by simp [UpdateList.exprs])
    | extend i' v' next' =>
      have hparts : i = i' ∧ v = v' ∧ next.exprs = next'.exprs := by
        simpa [UpdateList.exprs] using hexprs
      obtain ⟨rfl, rfl, hnext⟩ := hparts
      have htail : next = next' := ih harray hnext
      rw [htail]

theorem BinaryKind.number_range (k : BinaryKind) : 9 ≤ k.number ∧ k.number ≤ 22 ∧ k.number ≠ 16 := by
  cases k <;> decide

theorem CmpKind.number_range (k : CmpKind) : 23 ≤ k.number ∧ k.number ≤ 32 := by
  cases k <;> decide

theorem CastKind.number_range (k : CastKind) : 7 ≤ k.number ∧ k.number ≤ 8 := by
  cases k <;> decide

/-- Two nodes with the same kind, contents and kids are equal. -/
theorem Expr.eq_of_compareNode {address : KArray → ℕ} {hash_value : APInt → BitVec 32}
    (haddress : Function.Injective address) {s t : Expr}
    (hnode : Expr.compareNode address hash_value s t = .eq) (hkids : s.compared = t.compared) :
    s = t := by
  have hparts : s.getKind = t.getKind ∧ s.contents address = t.contents address := by
    obtain ⟨hkind, hrest⟩ := compareLex_eq_eq.mp hnode
    obtain ⟨-, hcontents⟩ := compareLex_eq_eq.mp hrest
    exact ⟨Std.LawfulEqCmp.eq_of_compare hkind, Std.LawfulEqCmp.eq_of_compare hcontents⟩
  obtain ⟨hkind, hcontents⟩ := hparts
  cases s <;> cases t
  -- nodes of different shapes have different kinds
  all_goals first
    | exact absurd hkind (by
        simp only [Expr.getKind]
        grind [BinaryKind.number_range, CmpKind.number_range, CastKind.number_range])
    | skip
  case Constant.Constant v v' =>
    have hvalue : v.width = v'.width ∧ v.toNat = v'.toNat := by
      simpa [Expr.contents] using hcontents
    rw [APInt.ext_toNat hvalue.1 hvalue.2]
  case Read.Read ul i ul' i' =>
    have harray : address ul.array = address ul'.array := by
      have hread : ul.array.nameBytes = ul'.array.nameBytes ∧
          address ul.array = address ul'.array ∧ ul.getSize = ul'.getSize := by
        simpa [Expr.contents] using hcontents
      exact hread.2.1
    have hbelow : ul.exprs = ul'.exprs ∧ [i] = [i'] := List.append_inj' hkids rfl
    rw [UpdateList.eq_of_exprs (haddress harray) hbelow.1, List.singleton_inj.mp hbelow.2]
  case Extract.Extract e off w e' off' w' =>
    have hbits : off = off' ∧ w = w' := by simpa [Expr.contents] using hcontents
    rw [hbits.1, hbits.2, List.singleton_inj.mp hkids]
  case Cast.Cast k e w k' e' w' =>
    have hwidth : w = w' := by simpa [Expr.contents] using hcontents
    rw [CastKind.number_injective hkind, hwidth, List.singleton_inj.mp hkids]
  case NotOptimized.NotOptimized e e' => rw [List.singleton_inj.mp hkids]
  case Not.Not e e' => rw [List.singleton_inj.mp hkids]
  case Select.Select c t f c' t' f' =>
    have hbelow : c = c' ∧ t = t' ∧ f = f' := by simpa [Expr.compared, Expr.kids] using hkids
    rw [hbelow.1, hbelow.2.1, hbelow.2.2]
  case Concat.Concat l r l' r' =>
    have hbelow : l = l' ∧ r = r' := by simpa [Expr.compared, Expr.kids] using hkids
    rw [hbelow.1, hbelow.2]
  case Binary.Binary k l r k' l' r' =>
    have hbelow : l = l' ∧ r = r' := by simpa [Expr.compared, Expr.kids] using hkids
    rw [BinaryKind.number_injective hkind, hbelow.1, hbelow.2]
  case Cmp.Cmp k l r k' l' r' =>
    have hbelow : l = l' ∧ r = r' := by simpa [Expr.compared, Expr.kids] using hkids
    rw [CmpKind.number_injective hkind, hbelow.1, hbelow.2]

namespace ExprMemory

variable {m : ExprMemory}

/-! ## What the code computes -/

/-- The pairs in the set are pairs of equal expressions. -/
def Equivs (m : ExprMemory) (equivs : Finset (ℕ × ℕ)) : Prop :=
  ∀ pq ∈ equivs, m.expr pq.1 = m.expr pq.2

theorem equivs_empty : m.Equivs ∅ := fun _ hpq => absurd hpq (Finset.notMem_empty _)

variable {p q n : ℕ}

theorem expr_equivPair :
    m.expr (equivPair p q).1 = m.expr (equivPair p q).2 ↔ m.expr p = m.expr q := by
  unfold equivPair
  split
  · exact Iff.rfl
  · exact eq_comm

theorem Equivs.insert {equivs : Finset (ℕ × ℕ)} (h : m.Equivs equivs) (hpq : m.expr p = m.expr q) :
    m.Equivs (insert (equivPair p q) equivs) := by
  intro pq hmem
  rcases Finset.mem_insert.mp hmem with rfl | hmem
  · exact expr_equivPair.mpr hpq
  · exact h pq hmem

open HiddenState

section Below

variable {compare : ℕ → ℕ → EquivM Ordering} {cmp : Expr → Expr → Ordering}

theorem refCompare_yields {p q : ℕ} {c : Ordering} (h : Yields m.Equivs (compare p q) c) :
    Yields m.Equivs (refCompare compare p q) c :=
  yields_bind h (yields_bind (yields_modify fun _ _ => equivs_empty) (yields_pure c))

/-- The loop over the kids compares them one by one. -/
theorem compareKids_yields {ps qs : List ℕ} (hlength : ps.length = qs.length)
    (h : ∀ p ∈ ps, ∀ q, Yields m.Equivs (compare p q) (cmp (m.expr p) (m.expr q))) :
    Yields m.Equivs (compareKids compare ps qs)
      ((ps.map m.expr).compareLex cmp (qs.map m.expr)) := by
  induction ps generalizing qs with
  | nil =>
    obtain rfl := List.length_eq_zero_iff.mp hlength.symm
    exact yields_pure Ordering.eq
  | cons p ps ih =>
    cases qs with
    | nil => exact absurd hlength (by simp)
    | cons q qs =>
      rw [List.map_cons, List.map_cons, List.compareLex_cons_cons]
      apply yields_orElse (h p List.mem_cons_self q)
      intro _
      exact ih (Nat.succ.inj hlength) fun p' hp' => h p' (List.mem_cons_of_mem _ hp')

/-- Update nodes are compared one by one, indices before values. Nodes that are shared need no
comparison: what follows them is the same list. -/
theorem compareNodes_yields [Std.ReflCmp cmp] {root : KArray} {n : ℕ} {head head' : Option ℕ}
    (hsize : (m.list root head).getSize = n) (hsize' : (m.list root head').getSize = n)
    (h : ∀ p, m.expr p ∈ (m.list root head).exprs → ∀ q,
      Yields m.Equivs (compare p q) (cmp (m.expr p) (m.expr q))) :
    Yields m.Equivs (m.compareNodes compare n head head')
      ((m.list root head).exprs.compareLex cmp (m.list root head').exprs) := by
  induction n generalizing head head' with
  | zero =>
    -- both chains are empty
    have hnil : ∀ {head : Option ℕ}, (m.list root head).getSize = 0 →
        (m.list root head).exprs = [] := by
      intro head hzero
      cases hlist : m.list root head with
      | root a => rfl
      | extend i v next =>
        rw [hlist] at hzero
        exact absurd hzero (Nat.succ_ne_zero _)
    rw [hnil hsize, hnil hsize']
    exact yields_pure Ordering.eq
  | succ n ih =>
    cases head with
    | none =>
      rw [m.list_none] at hsize
      exact absurd hsize.symm (Nat.succ_ne_zero n)
    | some an =>
    cases head' with
    | none =>
      rw [m.list_none] at hsize'
      exact absurd hsize'.symm (Nat.succ_ne_zero n)
    | some bn =>
      unfold compareNodes
      split
      case isTrue hshared =>
        have hself : (m.list root (some bn)).exprs.compareLex cmp (m.list root (some bn)).exprs = .eq :=
          Std.ReflCmp.compare_self
        rw [hshared, hself]
        exact yields_pure Ordering.eq
      case isFalse _ =>
        have hlist := m.list_some root an
        have hlist' := m.list_some root bn
        rw [hlist] at hsize h ⊢
        rw [hlist'] at hsize' ⊢
        have hindex := h (m.node an).index List.mem_cons_self (m.node bn).index
        have hvalue := h (m.node an).value (List.mem_cons_of_mem _ List.mem_cons_self)
          (m.node bn).value
        have htail := ih (Nat.succ.inj hsize) (Nat.succ.inj hsize') fun p hp =>
          h p (List.mem_cons_of_mem _ (List.mem_cons_of_mem _ hp))
        have hnode : Yields m.Equivs (m.compareUpdateNode compare an bn) _ :=
          yields_orElse (refCompare_yields hindex) fun _ => refCompare_yields hvalue
        simp only [UpdateList.exprs, List.compareLex_cons_cons, ← Ordering.then_assoc]
        exact yields_orElse hnode fun _ => htail

/-- Lists of one length are compared before what follows them. -/
theorem then_compareLex_append {o : Ordering} {xs ys : List Expr}
    (hlength : o = .eq → xs.length = ys.length) (xs' ys' : List Expr) :
    (o.then (xs.compareLex cmp ys)).then (xs'.compareLex cmp ys') =
      o.then ((xs ++ xs').compareLex cmp (ys ++ ys')) := by
  have happend : ∀ {xs ys : List Expr}, xs.length = ys.length →
      (xs ++ xs').compareLex cmp (ys ++ ys') =
        (xs.compareLex cmp ys).then (xs'.compareLex cmp ys') := by
    intro xs ys hlength
    induction xs generalizing ys with
    | nil =>
      obtain rfl := List.length_eq_zero_iff.mp hlength.symm
      rfl
    | cons x xs ih =>
      cases ys with
      | nil => exact absurd hlength (by simp)
      | cons y ys =>
        rw [List.cons_append, List.cons_append, List.compareLex_cons_cons,
          List.compareLex_cons_cons, ih (Nat.succ.inj hlength), Ordering.then_assoc]
  cases o with
  | lt => rfl
  | gt => rfl
  | eq => exact (happend (hlength rfl)).symm

theorem length_exprs (ul : UpdateList) : ul.exprs.length = 2 * ul.getSize := by
  induction ul using UpdateList.nodeInduction with
  | root a => rfl
  | extend i v next ih =>
    simp only [UpdateList.exprs, UpdateList.getSize, List.length_cons, ih]
    omega

theorem list_array (root : KArray) (head : Option ℕ) : (m.list root head).array = root := by
  induction hul : m.list root head using UpdateList.nodeInduction generalizing head with
  | root a =>
    cases head with
    | none => rw [m.list_none] at hul; exact hul ▸ rfl
    | some n => exact absurd ((m.list_some root n).symm.trans hul) (by simp)
  | extend i v next ih =>
    cases head with
    | none => exact absurd ((m.list_none root).symm.trans hul) (by simp)
    | some n =>
      rw [m.list_some] at hul
      injection hul with _ _ hnext
      exact ih _ hnext

/-- The lists of two reads are compared by what is particular to the read and then node by node. -/
theorem compareUpdates_yields [Std.ReflCmp cmp] (root root' : KArray) (head head' : Option ℕ)
    (i i' : Expr)
    (h : ∀ p, m.expr p ∈ (m.list root head).exprs → ∀ q,
      Yields m.Equivs (compare p q) (cmp (m.expr p) (m.expr q))) :
    Yields m.Equivs (m.compareUpdates compare root head root' head')
      ((Ord.compare (Expr.contents m.address (.Read (m.list root head) i))
        (Expr.contents m.address (.Read (m.list root' head') i'))).then
        ((m.list root head).exprs.compareLex cmp (m.list root' head').exprs)) := by
  have hcontents : Ord.compare (Expr.contents m.address (.Read (m.list root head) i))
      (Expr.contents m.address (.Read (m.list root' head') i')) =
      (Ord.compare root.nameBytes root'.nameBytes).then
        ((Ord.compare (m.address root) (m.address root')).then
          (Ord.compare (m.list root head).getSize (m.list root' head').getSize)) := by
    simp only [Expr.contents, list_array, List.compare_cons_cons, List.compare_nil_nil,
      Ordering.then_eq]
  rw [hcontents, Ordering.then_assoc, Ordering.then_assoc]
  apply yields_orElse (yields_pure _)
  intro _
  apply yields_orElse (yields_pure _)
  intro haddress
  apply yields_orElse (yields_pure _)
  intro hsize
  obtain rfl : root = root' := m.address_injective (Std.LawfulEqCmp.eq_of_compare haddress)
  exact compareNodes_yields rfl (Std.LawfulEqCmp.eq_of_compare hsize).symm h

/-- The contents and the kids of two objects of one kind are compared as the contents of the nodes
and what is below them. -/
theorem compareObject_yields [Std.ReflCmp cmp] {p q : ℕ}
    (hkind : (m.expr p).getKind = (m.expr q).getKind)
    (h : ∀ k, m.expr k ∈ (m.expr p).parts → ∀ l,
      Yields m.Equivs (compare k l) (cmp (m.expr k) (m.expr l))) :
    ∃ c d, Yields m.Equivs (m.compareContents compare (m.object p) (m.object q)) c
      ∧ Yields m.Equivs (compareKids compare (m.object p).kids (m.object q).kids) d
      ∧ c.then d = (Ord.compare ((m.expr p).contents m.address) ((m.expr q).contents m.address)).then
          ((m.expr p).compared.compareLex cmp (m.expr q).compared) := by
  rw [m.expr_eq p, m.expr_eq q] at hkind ⊢
  rw [m.expr_eq p] at h
  generalize m.object p = a at hkind h ⊢
  generalize m.object q = b at hkind ⊢
  have hkids : a.kids.length = b.kids.length → Yields m.Equivs (compareKids compare a.kids b.kids)
      ((a.kids.map m.expr).compareLex cmp (b.kids.map m.expr)) := by
    intro hlength
    apply compareKids_yields hlength
    intro k hk
    apply h k
    apply Expr.kids_subset_parts
    rw [ExprObject.kids_toExpr]
    exact List.mem_map_of_mem hk
  cases a <;> cases b
  -- objects of different shapes have different kinds
  all_goals first
    | exact absurd hkind (by
        simp only [ExprObject.toExpr, Expr.getKind]
        grind [BinaryKind.number_range, CmpKind.number_range, CastKind.number_range])
    | skip
  case Read.Read root head i root' head' i' =>
    have hupdates := compareUpdates_yields root root' head head' (m.expr i) (m.expr i')
      fun k hk => h k (List.mem_cons_of_mem _ hk)
    refine ⟨_, _, hupdates, hkids rfl, ?_⟩
    apply then_compareLex_append
    intro hcontents
    -- the lists have one length, so that the index is compared with the index
    have hlists := Std.LawfulEqCmp.eq_of_compare hcontents
    simp only [Expr.contents, List.cons.injEq] at hlists
    rw [length_exprs, length_exprs, hlists.2.1.2.1]
  case Not.Not e e' =>
    have hsrc := h e List.mem_cons_self e'
    refine ⟨cmp (m.expr e) (m.expr e'), _, ?_, hkids rfl, ?_⟩
    · apply yields_bind (refCompare_yields hsrc)
      cases hcmp : cmp (m.expr e) (m.expr e') with
      | eq => exact yields_pure Ordering.eq
      | lt =>
        -- the objects differ, and are compared again
        apply yields_bind (refCompare_yields hsrc)
        rw [hcmp]
        exact yields_pure Ordering.lt
      | gt =>
        apply yields_bind (refCompare_yields hsrc)
        rw [hcmp]
        exact yields_pure Ordering.gt
    · have hone : [m.expr e].compareLex cmp [m.expr e'] = cmp (m.expr e) (m.expr e') := by
        rw [List.compareLex_cons_cons, List.compareLex_nil_nil, Ordering.then_eq]
      show (cmp (m.expr e) (m.expr e')).then ([m.expr e].compareLex cmp [m.expr e']) =
        Ordering.eq.then ([m.expr e].compareLex cmp [m.expr e'])
      rw [hone]
      cases cmp (m.expr e) (m.expr e') <;> rfl
  case Constant.Constant v v' =>
    refine ⟨_, _, yields_pure _, hkids rfl, ?_⟩
    simp only [ExprObject.toExpr, Expr.contents, List.compare_cons_cons, List.compare_nil_nil,
      Ordering.then_eq]
    rfl
  case Extract.Extract e off w e' off' w' =>
    refine ⟨_, _, yields_pure _, hkids rfl, ?_⟩
    simp only [ExprObject.toExpr, Expr.contents, List.compare_cons_cons, List.compare_nil_nil,
      Ordering.then_eq]
    rfl
  case Cast.Cast k e w k' e' w' =>
    refine ⟨_, _, yields_pure _, hkids rfl, ?_⟩
    simp only [ExprObject.toExpr, Expr.contents, List.compare_cons_cons, List.compare_nil_nil,
      Ordering.then_eq]
    rfl
  all_goals exact ⟨_, _, yields_pure _, hkids rfl, rfl⟩

end Below

/-- The order of the expressions in a memory, down to a depth. -/
abbrev order (m : ExprMemory) : ℕ → Expr → Expr → Ordering :=
  TreeOrder.compareTo (Expr.compareNode m.address m.hash_value) Expr.compared

theorem eq_of_order {s t : Expr} (hn : s.deep.length < n) (h : m.order n s t = .eq) :
    s = t := by
  apply TreeOrder.eq_of_compareTo Expr.deep_compared_lt _ hn h
  intro s t hnode hkids
  exact Expr.eq_of_compareNode m.address_injective hnode hkids

/-- Objects that are compared down to their kids are entered when nothing below them differs. -/
theorem compareObjects_yields (hn : (m.expr p).deep.length < n + 1)
    (h : ∀ k, m.expr k ∈ (m.expr p).parts → ∀ l,
      Yields m.Equivs (m.compareTo n k l) (m.order n (m.expr k) (m.expr l))) :
    Yields m.Equivs (m.compareObjects (m.compareTo n) p q)
      (m.order (n + 1) (m.expr p) (m.expr q)) := by
  have horder : m.order (n + 1) (m.expr p) (m.expr q) =
      (Ord.compare (m.expr p).getKind (m.expr q).getKind).then
        ((Ord.compare ((m.expr p).hash m.hash_value).toNat
          ((m.expr q).hash m.hash_value).toNat).then
          ((Ord.compare ((m.expr p).contents m.address) ((m.expr q).contents m.address)).then
            ((m.expr p).compared.compareLex (m.order n) (m.expr q).compared))) := by
    rw [← Ordering.then_assoc, ← Ordering.then_assoc]
    rw [Ordering.then_assoc (Ord.compare (m.expr p).getKind _)]
    rfl
  have hequal : m.order (n + 1) (m.expr p) (m.expr q) = .eq → m.expr p = m.expr q :=
    eq_of_order hn
  rw [horder] at hequal ⊢
  apply yields_orElse (yields_pure _)
  intro hkind
  apply yields_orElse (yields_pure _)
  intro hhash
  obtain ⟨c, d, hcontents, hkids, hcd⟩ :=
    compareObject_yields (Std.LawfulEqCmp.eq_of_compare hkind) h
  rw [hkind, hhash, ← hcd] at hequal
  rw [← hcd]
  apply yields_orElse hcontents
  intro hc
  rw [← Ordering.then_eq (o := d)]
  apply yields_orElse hkids
  intro hd
  have hpq : m.expr p = m.expr q := hequal (by rw [hc, hd]; rfl)
  exact yields_bind (yields_modify fun _ hequivs => hequivs.insert hpq) (yields_pure Ordering.eq)

/-- The code computes the order of trees. It does so from every set of equal pairs, and it adds
equal pairs only. -/
theorem compareTo_yields (n p q : ℕ) (hn : (m.expr p).deep.length < n) :
    Yields m.Equivs (m.compareTo n p q) (m.order n (m.expr p) (m.expr q)) := by
  induction n generalizing p q with
  | zero => exact absurd hn (Nat.not_lt_zero _)
  | succ n ih =>
    have hbelow : ∀ k, m.expr k ∈ (m.expr p).parts → ∀ l,
        Yields m.Equivs (m.compareTo n k l) (m.order n (m.expr k) (m.expr l)) := by
      intro k hk l
      have hlt := Expr.deep_length_lt hk
      exact ih k l (by omega)
    have hself : ∀ e, m.order (n + 1) e e = .eq := fun _ => Std.ReflCmp.compare_self
    unfold compareTo
    split
    case isTrue hpq =>
      rw [hpq, hself]
      exact yields_pure Ordering.eq
    case isFalse _ =>
      apply yields_get
      intro equivs hequivs
      split
      case isTrue hmem =>
        -- the objects have been found equal before
        rw [expr_equivPair.mp (hequivs _ hmem), hself]
        exact ⟨rfl, hequivs⟩
      case isFalse _ => exact compareObjects_yields hn hbelow equivs hequivs

/-! ## The laws -/

/-- From the empty set the code computes the order, at any depth that is enough. -/
theorem compare_eq (q : ℕ) (hn : (m.expr p).deep.length < n) :
    m.compare p q = m.order n (m.expr p) (m.expr q) := by
  have hrun : m.compare p q = m.order ((m.expr p).deep.length + 1) (m.expr p) (m.expr q) :=
    (refCompare_yields (compareTo_yields _ p q (Nat.lt_succ_self _))).run_eq equivs_empty
  rw [hrun]
  exact TreeOrder.compareTo_eq Expr.deep_compared_lt (m.expr q) (Nat.lt_succ_self _) hn

/-- `Expr::compare` is a total order of the expressions, and objects compare equal exactly when they
are the same expression. -/
theorem compare_totalOrder (m : ExprMemory) (a b c : ℕ) :
    (m.compare a b = .eq ↔ m.expr a = m.expr b)
      ∧ m.compare b a = (m.compare a b).swap
      ∧ ((m.compare a b).isLE → (m.compare b c).isLE → (m.compare a c).isLE) := by
  obtain ⟨n, ha, hb⟩ : ∃ n, (m.expr a).deep.length < n ∧ (m.expr b).deep.length < n :=
    ⟨(m.expr a).deep.length + (m.expr b).deep.length + 1, by omega, by omega⟩
  rw [compare_eq b ha, compare_eq c ha, compare_eq a hb, compare_eq c hb]
  refine ⟨⟨eq_of_order ha, ?_⟩, Std.OrientedCmp.eq_swap, Std.TransCmp.isLE_trans⟩
  intro hab
  rw [hab]
  exact Std.ReflCmp.compare_self

/-- There are addresses enough for all arrays. -/
theorem exists_address : ∃ address : KArray → ℕ, Function.Injective address := by
  have hparts : Function.Injective fun a : KArray =>
      (a.id, a.name.toList.map Char.toNat, a.size, a.constantValues.map BitVec.toNat) := by
    rintro ⟨id, name, size, values, _⟩ ⟨id', name', size', values', _⟩ h
    simp only [Prod.mk.injEq] at h
    obtain ⟨rfl, hname, rfl, hvalues⟩ := h
    have hchars : name.toList = name'.toList :=
      List.map_injective_iff.mpr (fun _ _ => Char.toNat_inj.mp) hname
    have hbytes : values = values' :=
      List.map_injective_iff.mpr (fun _ _ => BitVec.eq_of_toNat_eq) hvalues
    obtain rfl := String.toList_injective hchars
    subst hbytes
    rfl
  have : Countable KArray := hparts.countable
  exact exists_injective_nat KArray

/-- Two reads of byte 7 after it has been overwritten, each with an update node of its own, and the
index they share. -/
theorem compare_totalOrder_reads : ∃ m : ExprMemory,
    m.object 1 ≠ m.object 2 ∧ m.compare 1 2 = .eq ∧ m.compare 2 1 = .eq ∧ (m.compare 0 2).isLE := by
  obtain ⟨address, haddress⟩ := exists_address
  let a : KArray := ⟨0, "arr", 8, [], .inl rfl⟩
  let index : Expr := .Constant ⟨32, 7⟩
  let value : Expr := .Constant ⟨8, 5⟩
  let list : KArray → Option ℕ → UpdateList := fun root head =>
    head.elim (.root root) fun _ => .extend index value (.root root)
  let m : ExprMemory :=
    { object := fun p => match p with
        | 0 => .Constant ⟨32, 7⟩
        | 1 => .Read a (some 0) 0
        | 2 => .Read a (some 1) 0
        | _ => .Constant ⟨8, 5⟩
      node := fun _ => ⟨0, 3, none⟩
      address := address
      address_injective := haddress
      hash_value := fun v => BitVec.ofNat 32 v.toNat
      expr := fun p => match p with
        | 0 => index
        | 1 | 2 => .Read (.extend index value (.root a)) index
        | _ => value
      list := list
      expr_eq := by
        intro p
        match p with
        | 0 | 1 | 2 => rfl
        | _ + 3 => rfl
      list_none := fun _ => rfl
      list_some := fun _ _ => rfl }
  have h12 : m.compare 1 2 = .eq := (compare_totalOrder m 1 2 1).1.mpr rfl
  have h21 : m.compare 2 1 = .eq := by
    rw [(compare_totalOrder m 1 2 1).2.1, h12]
    rfl
  have h01 : m.compare 0 1 = .lt := rfl
  refine ⟨m, by simp [m], h12, h21, (compare_totalOrder m 0 1 2).2.2 ?_ ?_⟩
  · rw [h01]
    rfl
  · rw [h12]
    rfl

end ExprMemory

end Xklee
