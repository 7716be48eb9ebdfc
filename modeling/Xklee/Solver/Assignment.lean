/-
Assignments: `include/klee/util/Assignment.h`, and `findSymbolicObjects` of
`lib/Expr/ExprUtil.cpp`.

An assignment binds arrays to their bytes; bytes it does not bind are 0. It
evaluates expressions with `ExprEvaluator`. A solver is asked for the bytes of
the arrays `findSymbolicObjects` finds in the constraints; the assignment made
from its answer satisfies them, because no other array matters.
-/
import Mathlib.Data.Finmap
import Xklee.Expr.Evaluator
import Xklee.Solver.Query

set_option autoImplicit false

namespace Xklee

/-! ## Assignments -/

/-- `Assignment` with `allowFreeValues` off: the bytes of some arrays. -/
structure Assignment where
  bindings : Finmap (fun _ : KArray => List (BitVec 8))
deriving DecidableEq

namespace Assignment

/-- `Assignment(objects, values)`: `map::insert` keeps the first of several
bindings of one array. -/
def ofValues (objects : List KArray) (values : List (List (BitVec 8))) : Assignment :=
  ⟨(objects.zip values).foldl
    (fun m b => if b.1 ∈ m then m else m.insert b.1 b.2) ∅⟩

/-- `Assignment::evaluate(array, index)`: an unbound byte is 0. -/
def byte (a : Assignment) (array : KArray) (index : ℕ) : BitVec 8 :=
  match a.bindings.lookup array with
  | some bytes => bytes.getD index 0
  | none => 0

/-- The evaluator of an assignment. -/
def evaluate (a : Assignment) : Expr → Expr :=
  ExprEvaluator.visit (fun array index => .Constant ⟨8, a.byte array index⟩)

/-- `Assignment::satisfies`. -/
def satisfies (a : Assignment) (constraints : List Expr) : Bool :=
  constraints.all (fun c => (a.evaluate c).isTrue)

/-- Every bound array has as many bytes as its size. -/
def Sized (a : Assignment) : Prop :=
  ∀ array bytes, a.bindings.lookup array = some bytes → bytes.length = array.size

/-- The assignment of bytes to arrays: what is not bound is 0. -/
def env (a : Assignment) : Env := a.byte

variable {a : Assignment}

theorem byte_of_le (h : a.Sized) {array : KArray} {n : ℕ} (hn : array.size ≤ n) :
    a.byte array n = 0 := by
  rw [byte]
  split
  next bytes hb =>
    have hlen := h array bytes hb
    exact List.getD_eq_default _ _ (by omega)
  next => rfl

theorem initialSound (h : a.Sized) :
    InitialSound a.env (fun array index => .Constant ⟨8, a.byte array index⟩) := by
  intro array n _ hn
  have hval : array.initial a.env n = a.byte array n := by
    rw [KArray.initial]
    split
    next hc =>
      -- past the end of a constant array
      have hle : array.size ≤ n := by
        by_contra hlt
        exact hn ⟨hc, by omega⟩
      rw [byte_of_le h hle]
      have hlen : array.constantValues.length ≤ n := by
        rcases array.wf with hw | hw
        · simp [hw]
        · omega
      exact List.getD_eq_default _ _ hlen
    next hc =>
      split
      next => rfl
      next hle => exact (byte_of_le h (by omega)).symm
  rw [hval]
  exact denotes_const (by decide) _

/-- A constant result of `Assignment::evaluate` is the value under the assignment. -/
theorem eval_of_evaluate (h : a.Sized) {e : Expr} (he : e.WellTyped) {c : APInt}
    (hc : a.evaluate e = .Constant c) : c = e.eval a.env :=
  ExprEvaluator.eq_eval_of_constant (initialSound h) he hc

/-- What `satisfies` accepts is satisfied. -/
theorem satisfies_sound (h : a.Sized) {constraints : List Expr}
    (hwt : ∀ c ∈ constraints, c.WellTyped) (hs : a.satisfies constraints = true) :
    Satisfies a.env constraints := by
  intro c hc
  have htrue := List.all_eq_true.mp hs c hc
  cases hv : a.evaluate c with
  | Constant v =>
    rw [hv] at htrue
    rw [Expr.Holds, ← eval_of_evaluate h (hwt c hc) hv]
    exact htrue
  | _ =>
    rw [hv] at htrue
    exact absurd htrue (by simp [Expr.isTrue])

end Assignment

/-! ## Symbolic objects -/

/-- `if (results.insert(array).second) objects.push_back(array)`. -/
def addObject (objects : List KArray) (array : KArray) : List KArray :=
  if array ∈ objects then objects else objects ++ [array]

mutual

/-- `SymbolicObjectFinder`: the symbolic arrays read by an expression, in the
order they are found. The visitor never changes a node, and its table of visited
expressions only saves it from finding the same arrays again. -/
def Expr.symbolicObjects : Expr → List KArray → List KArray
  | .Constant _, objects => objects
  | .NotOptimized e, objects => e.symbolicObjects objects
  | .Read ul index, objects =>
      let objects := ul.symbolicObjects objects
      let objects := if ul.array.isSymbolicArray then addObject objects ul.array else objects
      index.symbolicObjects objects
  | .Select c t f, objects => f.symbolicObjects (t.symbolicObjects (c.symbolicObjects objects))
  | .Concat l r, objects => r.symbolicObjects (l.symbolicObjects objects)
  | .Extract e _ _, objects => e.symbolicObjects objects
  | .Cast _ e _, objects => e.symbolicObjects objects
  | .Not e, objects => e.symbolicObjects objects
  | .Binary _ l r, objects => r.symbolicObjects (l.symbolicObjects objects)
  | .Cmp _ l r, objects => r.symbolicObjects (l.symbolicObjects objects)

def UpdateList.symbolicObjects : UpdateList → List KArray → List KArray
  | .root _, objects => objects
  | .extend i v next, objects =>
      next.symbolicObjects (v.symbolicObjects (i.symbolicObjects objects))

end

/-- `findSymbolicObjects` over a range of expressions. -/
def findSymbolicObjects (exprs : List Expr) : List KArray :=
  exprs.foldl (fun objects e => e.symbolicObjects objects) []

theorem UpdateList.symbolicObjects_eq (ul : UpdateList) (objects : List KArray) :
    ul.symbolicObjects objects = ul.exprs.foldl (fun objects e => e.symbolicObjects objects) objects := by
  induction ul using UpdateList.nodeInduction generalizing objects with
  | root a => rfl
  | extend i v next ih =>
    change next.symbolicObjects (v.symbolicObjects (i.symbolicObjects objects)) = _
    rw [ih]
    rfl

theorem subset_addObject (objects : List KArray) (array : KArray) :
    objects ⊆ addObject objects array := by
  rw [addObject]
  split
  · exact fun _ h => h
  · exact List.subset_append_left _ _

theorem mem_addObject (objects : List KArray) (array : KArray) :
    array ∈ addObject objects array := by
  rw [addObject]
  split
  next h => exact h
  next => simp

variable {exprs : List Expr} {e : Expr}

/-- What is found in a list of expressions, when each keeps what was found. -/
theorem foldl_symbolicObjects (hsub : ∀ e ∈ exprs, ∀ objects, objects ⊆ e.symbolicObjects objects)
    (objects : List KArray) :
    objects ⊆ exprs.foldl (fun objects e => e.symbolicObjects objects) objects
      ∧ ∀ e ∈ exprs, ∃ objects',
        e.symbolicObjects objects'
          ⊆ exprs.foldl (fun objects e => e.symbolicObjects objects) objects := by
  induction exprs generalizing objects with
  | nil => exact ⟨fun _ h => h, fun e he => absurd he List.not_mem_nil⟩
  | cons x xs ih =>
    obtain ⟨h1, h2⟩ := ih (fun e he => hsub e (List.mem_cons_of_mem _ he)) (x.symbolicObjects objects)
    refine ⟨fun a ha => h1 (hsub x List.mem_cons_self objects ha), fun e he => ?_⟩
    rcases List.mem_cons.mp he with rfl | he
    · exact ⟨objects, h1⟩
    · exact h2 e he

/-- A node other than a read passes the objects on from part to part. -/
theorem Expr.symbolicObjects_eq (hr : ∀ ul i, e ≠ .Read ul i) (objects : List KArray) :
    e.symbolicObjects objects
      = e.parts.foldl (fun objects e => e.symbolicObjects objects) objects := by
  cases e with
  | Read ul i => exact absurd rfl (hr ul i)
  | _ => rfl

/-- No symbolic array that is read is missed. -/
theorem Expr.symbolicObjects_spec (e : Expr) (objects : List KArray) :
    objects ⊆ e.symbolicObjects objects
      ∧ ∀ ul i, .Read ul i ∈ e.deep → ul.array.isSymbolicArray = true →
          ul.array ∈ e.symbolicObjects objects := by
  induction e using Expr.partsInduction generalizing objects with | _ e ih =>
  by_cases hr : ∃ ul i, e = .Read ul i
  · obtain ⟨ul, i, rfl⟩ := hr
    have hul : ∀ k ∈ ul.exprs, k ∈ (Expr.Read ul i).parts := fun k hk => List.mem_cons_of_mem _ hk
    obtain ⟨h1, h2⟩ := foldl_symbolicObjects (fun k hk o => (ih k (hul k hk) o).1) objects
    rw [← UpdateList.symbolicObjects_eq] at h1 h2
    have heq : (Expr.Read ul i).symbolicObjects objects
        = i.symbolicObjects (if ul.array.isSymbolicArray then
            addObject (ul.symbolicObjects objects) ul.array
          else ul.symbolicObjects objects) := rfl
    -- the array itself is added between the updates and the index
    have hmid : ul.symbolicObjects objects ⊆ (Expr.Read ul i).symbolicObjects objects := by
      rw [heq]
      refine List.Subset.trans ?_ (ih i List.mem_cons_self _).1
      split
      · exact subset_addObject _ _
      · exact fun _ h => h
    refine ⟨fun a ha => hmid (h1 ha), fun ul' i' hread hsym => ?_⟩
    rcases Expr.mem_deep_iff.mp hread with heq' | ⟨k, hk, hread'⟩
    · obtain ⟨rfl, rfl⟩ := Expr.Read.inj heq'
      rw [heq, if_pos hsym]
      exact (ih i' List.mem_cons_self _).1 (mem_addObject _ _)
    · rcases List.mem_cons.mp hk with rfl | hk
      · rw [heq]
        exact (ih k List.mem_cons_self _).2 ul' i' hread' hsym
      · obtain ⟨o, ho⟩ := h2 k hk
        exact hmid (ho ((ih k (hul k hk) o).2 ul' i' hread' hsym))
  · obtain ⟨h1, h2⟩ := foldl_symbolicObjects (fun k hk o => (ih k hk o).1) objects
    rw [Expr.symbolicObjects_eq (fun ul i h => hr ⟨ul, i, h⟩)]
    refine ⟨h1, fun ul' i' hread hsym => ?_⟩
    rcases Expr.mem_deep_iff.mp hread with rfl | ⟨k, hk, hread⟩
    · exact absurd ⟨ul', i', rfl⟩ hr
    · obtain ⟨o, ho⟩ := h2 k hk
      exact ho ((ih k hk o).2 ul' i' hread hsym)

theorem mem_findSymbolicObjects (he : e ∈ exprs) {ul : UpdateList} {i : Expr}
    (hread : .Read ul i ∈ e.deep) (hsym : ul.array.isSymbolicArray = true) :
    ul.array ∈ findSymbolicObjects exprs := by
  obtain ⟨-, h2⟩ := foldl_symbolicObjects (fun k (_ : k ∈ exprs) o => (k.symbolicObjects_spec o).1) []
  obtain ⟨o, ho⟩ := h2 e he
  exact ho ((e.symbolicObjects_spec o).2 ul i hread hsym)

/-! ## Assignments from solver answers -/

namespace Assignment

/-- Bytes of the arrays under an assignment, bound in order. -/
theorem lookup_foldl {σ : Env} {objects : List KArray} {values : List (List (BitVec 8))}
    (h : InitialValues σ objects values) (m : Finmap (fun _ : KArray => List (BitVec 8)))
    (hm : ∀ array bytes, m.lookup array = some bytes →
      bytes = (List.range array.size).map (σ array)) :
    (∀ array ∈ objects, (((objects.zip values).foldl
        (fun m b => if b.1 ∈ m then m else m.insert b.1 b.2) m).lookup array).isSome = true)
      ∧ (∀ array, array ∈ m → (((objects.zip values).foldl
        (fun m b => if b.1 ∈ m then m else m.insert b.1 b.2) m).lookup array).isSome = true)
      ∧ ∀ array bytes, ((objects.zip values).foldl
        (fun m b => if b.1 ∈ m then m else m.insert b.1 b.2) m).lookup array = some bytes →
          bytes = (List.range array.size).map (σ array) := by
  induction h generalizing m with
  | nil => exact ⟨by simp, fun a ha => Finmap.lookup_isSome.mpr ha, hm⟩
  | @cons b bytes objects values hb _ ih =>
    rw [List.zip_cons_cons, List.foldl_cons]
    have hstep : ∀ array bs, (if b ∈ m then m else m.insert b bytes).lookup array = some bs →
        bs = (List.range array.size).map (σ array) := by
      intro array bs hl
      split at hl
      next => exact hm array bs hl
      next =>
        by_cases hab : array = b
        · subst hab
          rw [Finmap.lookup_insert] at hl
          obtain rfl := Option.some.inj hl
          exact hb
        · rw [Finmap.lookup_insert_of_ne _ hab] at hl
          exact hm array bs hl
    have hkeep : ∀ array, array ∈ m ∨ array = b →
        array ∈ (if b ∈ m then m else m.insert b bytes) := by
      intro array ha
      split
      next hbm =>
        rcases ha with ha | rfl
        · exact ha
        · exact hbm
      next => exact Finmap.mem_insert.mpr (ha.symm)
    obtain ⟨h1, h2, h3⟩ := ih _ hstep
    refine ⟨fun array ha => ?_, fun array ha => h2 array (hkeep array (.inl ha)), h3⟩
    rcases List.mem_cons.mp ha with rfl | ha
    · exact h2 array (hkeep array (.inr rfl))
    · exact h1 array ha

variable {σ : Env} {objects : List KArray} {values : List (List (BitVec 8))}

theorem lookup_ofValues (h : InitialValues σ objects values) {array : KArray}
    {bytes : List (BitVec 8)} (hl : (ofValues objects values).bindings.lookup array = some bytes) :
    bytes = (List.range array.size).map (σ array) :=
  (lookup_foldl h ∅ (by simp)).2.2 array bytes hl

theorem sized_ofValues (h : InitialValues σ objects values) : (ofValues objects values).Sized := by
  intro array bytes hl
  rw [lookup_ofValues h hl, List.length_map, List.length_range]

/-- On the arrays that were asked for, the assignment has the bytes of the answer. -/
theorem env_ofValues (h : InitialValues σ objects values) {array : KArray}
    (ha : array ∈ objects) {n : ℕ} (hn : n < array.size) :
    (ofValues objects values).env array n = σ array n := by
  have hsome := (lookup_foldl h ∅ (by simp)).1 array ha
  obtain ⟨bytes, hl⟩ := Option.isSome_iff_exists.mp hsome
  have hl' : (ofValues objects values).bindings.lookup array = some bytes := hl
  rw [env, byte, hl', lookup_ofValues h hl']
  simp [hn]

/-- The assignment made from an answer gives the constraints their values. -/
theorem eval_ofValues (h : InitialValues σ objects values) {exprs : List Expr} {e : Expr}
    (he : e ∈ exprs) (hobj : findSymbolicObjects exprs = objects) :
    e.eval (ofValues objects values).env = e.eval σ := by
  subst hobj
  refine Expr.eval_congr (fun ul i hread n _ => ?_)
  rw [KArray.initial, KArray.initial]
  split
  next => rfl
  next hc =>
    split
    next hn =>
      refine env_ofValues h (mem_findSymbolicObjects he hread ?_) hn
      simpa [KArray.isConstantArray] using hc
    next => rfl

end Assignment

end Xklee
