/-
The meaning of the printed SMT-LIB scripts.

Where every array that is read is declared, the script is well formed, its terms
denote the values of the expressions, and it is satisfiable exactly when some
contents of the arrays satisfy the constraints and the negation of the query
expression (`meansQuery_iff`). The contents are those of `Expr.evalOn`: the
bytes past the end of an array are free, and the bytes of a constant array are
fixed (`Contents.Respects`).
-/
import Xklee.Expr.SMTLIBSound

set_option autoImplicit false

namespace Xklee

open SMTLIB (Term Literal LetTerm Command Script Interp Value Srt Fn₂)
open SMTLIB_SORT
open ExprSMTLIBPrinter (printExpression printExpression_eval getSort eval_printConstant)

/-- The first pair of a key is the only one. -/
theorem lookup_of_nodup {α β : Type} [BEq α] [LawfulBEq α] {l : List (α × β)} {a : α} {b : β}
    (hnodup : (l.map Prod.fst).Nodup) (hmem : (a, b) ∈ l) : l.lookup a = some b := by
  obtain ⟨l₁, l₂, rfl⟩ := List.append_of_mem hmem
  refine List.lookup_eq_some_iff.mpr ⟨l₁, l₂, rfl, fun p hp => ?_⟩
  rw [bne_iff_ne]
  rintro rfl
  rw [List.map_append, List.map_cons, List.nodup_append] at hnodup
  exact hnodup.2.2 p.1 (List.mem_map_of_mem hp) p.1 List.mem_cons_self rfl

namespace SMTLIBRequest

variable (arrayOrder : SetOrder KArray) (exprOrder : SetOrder Expr) (r : SMTLIBRequest)

/-- A request as its users make it: constants are printed in decimal, the
constraints are Bool, everything is canonical, and the size of an array is an
`unsigned int`. -/
structure Proper : Prop where
  decimal : r.constantDisplayMode = .DECIMAL
  constraints : ∀ c ∈ r.query.constraints, c.IsBool ∧ c.Canonical
  expr : r.query.expr.WellTyped ∧ r.query.expr.Canonical
  sizes : ∀ a, r.Read a ∨ r.Known a → a.size < 2 ^ 32

/-- The interpretation has the contents of the arrays that are read. -/
def Represents (I : Interp) (C : Contents) : Prop :=
  ∀ a, r.Read a → I a.name = some (arrayValue (C a))

section Typed

variable {r} (hr : r.Proper)

include hr

theorem asserted_ok : ∀ e ∈ r.asserted, e.WellTyped ∧ e.Canonical := by
  intro e he
  rcases List.mem_append.mp he with he | he
  · exact ⟨(hr.constraints e he).1.1, (hr.constraints e he).2⟩
  · rw [List.mem_singleton.mp he]
    obtain ⟨x, hx⟩ := hr.expr.1.denotes (σ := fun _ _ => 0) rfl
    exact ⟨(Expr.createIsZero_denotes hx).1, Expr.createIsZero_canonical hr.expr.2⟩

theorem scanned_ok : ∀ e ∈ r.scanned, e.WellTyped ∧ e.Canonical := by
  intro e he
  rcases List.mem_append.mp he with he | he
  · exact ⟨(hr.constraints e he).1.1, (hr.constraints e he).2⟩
  · rw [List.mem_singleton.mp he]
    exact hr.expr

end Typed

/-! ## Abbreviations -/

/-- The bindings of the `let`. -/
def letBindings : List (String × Term) :=
  (r.bindings exprOrder).map (fun p => (p.2,
    printExpression r.constantDisplayMode (fun _ => none) p.1 (getSort p.1)))

/-- The abbreviations that the assertions use. -/
def usedAbbreviations : ExprSMTLIBPrinter.Abbreviations :=
  if r.useLetExpressions then r.abbreviations exprOrder else fun _ => none

/-- The interpretation where the asserted terms stand: inside of the `let`. -/
def scope (I : Interp) : Interp :=
  if r.useLetExpressions then LetTerm.extend I (Term.eval I) (r.letBindings exprOrder) else I

theorem nodup_letBindings : ((r.letBindings exprOrder).map Prod.fst).Nodup := by
  have hnames : (r.letBindings exprOrder).map Prod.fst
      = ((exprOrder.toList r.letScan.twoOrMoreEO).zipIdx.map Prod.snd).map
        (fun n => "?B" ++ toString n) := by
    rw [letBindings, bindings, List.map_map, List.map_map, List.map_map]
    rfl
  rw [hnames, List.zipIdx_map_snd]
  refine List.Nodup.map (fun n m h => ?_) (List.nodup_range' 1)
  have hchars := congrArg String.toList h
  rw [String.toList_append, String.toList_append] at hchars
  exact Nat.repr_injective (String.toList_inj.mp (List.append_cancel_left hchars))

variable {exprOrder} {r}

variable {name : String} {a : KArray} {I : Interp} {C : Contents} {p : BitVec 8 × ℕ}

theorem mem_letBindings_of_abbreviations {x : Expr} (h : r.abbreviations exprOrder x = some name) :
    (name, printExpression r.constantDisplayMode (fun _ => none) x (getSort x))
      ∈ r.letBindings exprOrder :=
  List.mem_map.mpr ⟨_, mem_bindings_of_abbreviations h, rfl⟩

/-- An array that is read is not named like an abbreviation. -/
theorem lookup_letBindings_of_read (hlet : r.Abbreviable) (ha : r.Read a) :
    (r.letBindings exprOrder).lookup a.name = none := by
  rw [List.lookup_eq_none_iff]
  intro b hb
  obtain ⟨p, hp, rfl⟩ := List.mem_map.mp hb
  obtain ⟨n, hn⟩ := (of_mem_bindings hp).2
  change (a.name != p.2) = true
  rw [hn, bne_iff_ne]
  exact hlet.unreserved a ha n

section Scope

variable (hr : r.Proper) (hlet : r.useLetExpressions = true → r.Abbreviable) {I : Interp}
  {C : Contents} (hI : r.Represents I C)

include hr hlet hI

variable {x e : Expr}

/-- The expressions that are abbreviated have their values as terms of their own. -/
theorem eval_binding (huse : r.useLetExpressions = true) (hx : x ∈ r.letScan.twoOrMoreEO) :
    (printExpression r.constantDisplayMode (fun _ => none) x (getSort x)).eval I
      = some (valueAs (getSort x) (x.evalOn C)) := by
  obtain ⟨e, he, hdeep⟩ := r.mem_deep_of_mem_twoOrMoreEO hx
  have hok : ∀ x ∈ e.deep, x.WellTyped ∧ x.Canonical :=
    Expr.forall_mem_deep (fun e k h hk => ⟨h.1.part hk, h.2.part hk⟩) (scanned_ok hr e he)
  rw [hr.decimal]
  refine printExpression_eval (hok x hdeep).1 (hok x hdeep).2 (fun a ha => ?_) (by simp) _
  have hae : a ∈ e.arrays := by
    obtain ⟨ul, i, hread, rfl⟩ := ha
    exact ⟨ul, i, Expr.deep_trans hdeep hread, rfl⟩
  rcases List.mem_append.mp he with he | he
  · exact hI a ⟨e, List.mem_append_left _ he, hae⟩
  · rw [List.mem_singleton.mp he] at hae
    exact hI a ((hlet huse).kept a hae)

omit hr in
theorem scope_of_read {a : KArray} (ha : r.Read a) :
    r.scope exprOrder I a.name = some (arrayValue (C a)) := by
  rw [scope]
  split
  next huse =>
    rw [LetTerm.extend, lookup_letBindings_of_read (hlet huse) ha]
    exact hI a ha
  next => exact hI a ha

theorem scope_of_usedAbbreviations {name : String} (h : r.usedAbbreviations exprOrder x = some name) :
    r.scope exprOrder I name = some (valueAs (getSort x) (x.evalOn C)) := by
  rw [usedAbbreviations] at h
  rw [scope]
  split at h
  next huse =>
    have hlookup := lookup_of_nodup (nodup_letBindings exprOrder r)
      (mem_letBindings_of_abbreviations h)
    rw [if_pos huse, LetTerm.extend, hlookup]
    exact eval_binding hr hlet hI huse (of_mem_bindings (mem_bindings_of_abbreviations h)).1
  next => exact absurd h (by simp)

/-- Every term that is printed for a part of an asserted expression denotes the
value of the part, at every sort. -/
theorem eval_asserted (he : e ∈ r.asserted) (hx : x ∈ e.deep) (s : SMTLIB_SORT) :
    (printExpression r.constantDisplayMode (r.usedAbbreviations exprOrder) x s).eval
      (r.scope exprOrder I) = some (valueAs s (x.evalOn C)) := by
  have hok : ∀ x ∈ e.deep, x.WellTyped ∧ x.Canonical :=
    Expr.forall_mem_deep (fun e k h hk => ⟨h.1.part hk, h.2.part hk⟩) (asserted_ok hr e he)
  rw [hr.decimal]
  refine printExpression_eval (hok x hx).1 (hok x hx).2 (fun a ha => ?_) (fun y _ name hname => ?_) s
  · obtain ⟨ul, i, hread, rfl⟩ := ha
    exact scope_of_read hlet hI ⟨e, he, ul, i, Expr.deep_trans hx hread, rfl⟩
  · exact scope_of_usedAbbreviations hr hlet hI hname

theorem eval_printBool (he : e ∈ r.asserted) :
    (r.printBool (r.usedAbbreviations exprOrder) e).eval (r.scope exprOrder I)
      = some (.bool (decide (e.HoldsOn C))) :=
  eval_asserted hr hlet hI he e.mem_deep_self SORT_BOOL

end Scope

/-- Nested conjunctions. -/
theorem eval_foldr_and {f : Expr → Term} (v : Expr → Bool) (es : List Expr) {last : Term} {b : Bool}
    (hes : ∀ e ∈ es, (f e).eval I = some (.bool (v e))) (hlast : last.eval I = some (.bool b)) :
    (es.foldr (fun e rest => .app₂ (.bool .and) (f e) rest) last).eval I
      = some (.bool (es.all v && b)) := by
  induction es with
  | nil => exact hlast
  | cons e es ih =>
    obtain ⟨he, hes⟩ := List.forall_mem_cons.mp hes
    rw [List.foldr_cons, Term.eval, he, ih hes, List.all_cons, Bool.and_assoc]
    rfl

/-- Every assertion of the constraints and the query has a truth value, and they
are all true where the asserted expressions hold. -/
theorem printAssertions_true (hr : r.Proper) (hlet : r.useLetExpressions = true → r.Abbreviable)
    (hI : r.Represents I C) :
    (∀ t, Command.assert t ∈ r.printAssertions exprOrder → ∃ b, t.eval I = some (.bool b))
      ∧ ((∀ t, Command.assert t ∈ r.printAssertions exprOrder → t.eval I = some (.bool true))
        ↔ ∀ e ∈ r.asserted, e.HoldsOn C) := by
  have hbool : ∀ e ∈ r.asserted, (r.printBool (r.usedAbbreviations exprOrder) e).eval
      (r.scope exprOrder I) = some (.bool (decide (e.HoldsOn C))) :=
    fun e he => eval_printBool hr hlet hI he
  by_cases huse : r.useLetExpressions = true
  · have hassert : ∀ t, Command.assert t ∈ r.printAssertions exprOrder
        ↔ t = ⟨r.letBindings exprOrder, r.query.constraints.foldr
          (fun e rest => .app₂ (.bool .and) (r.printBool (r.abbreviations exprOrder) e) rest)
          (r.printBool (r.abbreviations exprOrder) r.queryAssert)⟩ := by
      intro t
      rw [printAssertions, if_pos huse, printLetExpression, List.mem_singleton, Command.assert.injEq]
      rfl
    simp only [hassert, forall_eq]
    rw [usedAbbreviations, if_pos huse, scope, if_pos huse] at hbool
    have hbindings : ∀ b ∈ r.letBindings exprOrder, (b.2.eval I).isSome := by
      intro b hb
      obtain ⟨p, hp, rfl⟩ := List.mem_map.mp hb
      exact Option.isSome_of_eq_some (eval_binding hr hlet hI huse (of_mem_bindings hp).1)
    have heval := eval_foldr_and (fun e => decide (e.HoldsOn C)) r.query.constraints
      (fun e he => hbool e (List.mem_append_left _ he))
      (hbool r.queryAssert (List.mem_append_right _ (List.mem_singleton_self _)))
    rw [LetTerm.eval, if_pos ⟨nodup_letBindings exprOrder r, hbindings⟩, heval]
    refine ⟨⟨_, rfl⟩, ?_⟩
    simp only [Option.some.injEq, Value.bool.injEq, Bool.and_eq_true, List.all_eq_true,
      decide_eq_true_eq, asserted, List.mem_append, List.mem_singleton, or_imp, forall_and,
      forall_eq]
  · have hassert : ∀ t, Command.assert t ∈ r.printAssertions exprOrder
        ↔ ∃ e ∈ r.asserted, t = ⟨[], r.printBool (fun _ => none) e⟩ := by
      intro t
      rw [printAssertions, if_neg huse, printConstraintsAndQuery, List.mem_map]
      simp only [Command.assert.injEq, eq_comm, asserted]
    rw [usedAbbreviations, if_neg huse, scope, if_neg huse] at hbool
    constructor
    · intro t ht
      obtain ⟨e, he, rfl⟩ := (hassert t).mp ht
      exact ⟨_, (LetTerm.eval_nil I _).trans (hbool e he)⟩
    · constructor
      · intro h e he
        have htrue := h _ ((hassert _).mpr ⟨e, he, rfl⟩)
        rw [LetTerm.eval_nil, hbool e he, Option.some.injEq, Value.bool.injEq] at htrue
        exact of_decide_eq_true htrue
      · intro h t ht
        obtain ⟨e, he, rfl⟩ := (hassert t).mp ht
        rw [LetTerm.eval_nil, hbool e he, decide_eq_true (h e he)]

/-! ## The commands -/

variable (exprOrder) (r)

/-- What is declared. -/
def declarations : List (String × Srt) :=
  (arrayOrder.toList r.usedArrays).map (fun a => (a.name, .array KArray.domain KArray.range))

/-- The commands after the declarations. -/
def restOfOutput : List Command :=
  (if r.arrayScan.haveConstantArray then
    (arrayOrder.toList r.usedArrays).flatMap
      (fun array => if array.isConstantArray then r.definitions array else [])
  else []) ++ (r.printAssertions exprOrder ++ (r.printAction ++ [.exit]))

theorem generateOutput_eq :
    r.generateOutput arrayOrder exprOrder
      = [.setLogic r.logicToUse] ++ ((r.declarations arrayOrder).map
          (fun d => .declareFun d.1 d.2) ++ r.restOfOutput arrayOrder exprOrder) := by
  rw [generateOutput, printArrayDeclarations, declarations, restOfOutput, List.map_map]
  simp only [List.cons_append, List.nil_append, List.append_assoc]
  rfl

theorem declares_restOfOutput : ∀ c ∈ r.restOfOutput arrayOrder exprOrder, c.declares = [] := by
  have hnil : (r.restOfOutput arrayOrder exprOrder).flatMap Command.declares = [] := by
    rw [restOfOutput, List.flatMap_append, List.flatMap_append, List.flatMap_append,
      declares_definitions, declares_printAssertions, declares_printAction]
    rfl
  exact List.flatMap_eq_nil_iff.mp hnil

/-- A script is well formed when the declared names differ and the commands
after the declarations are in order. -/
theorem wellFormed_generateOutput_iff :
    Script.WellFormed (r.generateOutput arrayOrder exprOrder)
      ↔ ((r.declarations arrayOrder).map Prod.fst).Nodup
        ∧ ∀ c ∈ r.restOfOutput arrayOrder exprOrder, c.Ok (r.declarations arrayOrder) := by
  have hdecls : Script.declared ((r.declarations arrayOrder).map
      (fun d => Command.declareFun d.1 d.2)) = r.declarations arrayOrder := by
    rw [Script.declared, List.flatMap_map]
    exact List.flatMap_singleton' _
  have hhead : Script.declared [Command.setLogic r.logicToUse] = [] := rfl
  rw [generateOutput_eq, Script.WellFormed, Script.wellFormedAfter_append,
    Script.wellFormedAfter_append, Script.wellFormedAfter_declareFun, hhead, hdecls,
    List.nil_append, List.nil_append,
    Script.wellFormedAfter_of_declares_eq_nil (r.declares_restOfOutput arrayOrder exprOrder)]
  simp [Script.WellFormedAfter, Command.Ok]

/-- The assertions of a script: the definitions of the constant arrays, where
there are any, and those of the constraints and the query. -/
theorem mem_assertions_generateOutput (t : LetTerm) :
    t ∈ Script.assertions (r.generateOutput arrayOrder exprOrder)
      ↔ (r.arrayScan.haveConstantArray = true ∧ ∃ a ∈ r.usedArrays, a.isConstantArray = true
          ∧ ∃ p ∈ a.constantValues.zipIdx, .assert t = r.definition a p.2 p.1)
        ∨ Command.assert t ∈ r.printAssertions exprOrder := by
  have haction : Command.assert t ∉ r.printAction ++ [.exit] := by
    intro h
    rcases List.mem_append.mp h with h | h
    · rcases List.mem_cons.mp h with h | h
      · exact absurd h (by simp)
      · obtain ⟨a, -, h⟩ := List.mem_flatMap.mp h
        obtain ⟨i, -, h⟩ := List.mem_map.mp h
        exact absurd h (by simp)
    · exact absurd (List.mem_singleton.mp h) (by simp)
  have hhead : Command.assert t ∉ [Command.setLogic r.logicToUse] := by simp
  have hdecls : Command.assert t ∉ (r.declarations arrayOrder).map
      (fun d => Command.declareFun d.1 d.2) := by simp
  rw [Script.mem_assertions_iff, generateOutput_eq, List.mem_append, List.mem_append, restOfOutput,
    List.mem_append, List.mem_append, or_iff_right hhead, or_iff_right hdecls,
    or_iff_left haction]
  refine or_congr_left ?_
  by_cases hflag : r.arrayScan.haveConstantArray = true
  · rw [if_pos hflag, List.mem_flatMap]
    simp only [hflag, true_and, arrayOrder.mem_toList]
    refine exists_congr fun a => and_congr_right fun _ => ?_
    by_cases hconst : a.isConstantArray = true
    · rw [if_pos hconst, definitions, List.mem_map]
      simp only [hconst, true_and, eq_comm]
    · rw [if_neg hconst]
      simp [hconst]
  · rw [if_neg hflag]
    simp [hflag]

/-! ## Interpretations of the declared arrays -/

/-- Distinct arrays, read or declared, have distinct names. -/
def NamesDiffer : Prop :=
  ∀ a b, (r.Read a ∨ r.Known a) → (r.Read b ∨ r.Known b) → a.name = b.name → a = b

/-- The interpretation of the declared arrays by contents. -/
def interp (C : Contents) : Interp := fun name =>
  ((arrayOrder.toList r.usedArrays).find? (fun a => a.name = name)).map (fun a => arrayValue (C a))

theorem sort_interp (C : Contents) (name : String) :
    (r.interp arrayOrder C name).map Value.sort = (r.declarations arrayOrder).lookup name := by
  rw [interp, declarations]
  induction arrayOrder.toList r.usedArrays with
  | nil => rfl
  | cons a as ih =>
    rw [List.map_cons, List.lookup_cons, List.find?_cons]
    by_cases h : a.name = name
    · simp only [h, decide_true, beq_self_eq_true]
      rfl
    · have hne : (name == a.name) = false := beq_false_of_ne (Ne.symm h)
      simp only [h, decide_false, hne]
      exact ih

variable {arrayOrder} {exprOrder} {r}

theorem interp_of_known (hnames : r.NamesDiffer) (ha : r.Known a) (C : Contents) :
    r.interp arrayOrder C a.name = some (arrayValue (C a)) := by
  have hmem : a ∈ arrayOrder.toList r.usedArrays :=
    (arrayOrder.mem_toList _ _).mpr ((r.mem_usedArrays_iff a).mpr ha)
  obtain ⟨b, hb⟩ : ∃ b, (arrayOrder.toList r.usedArrays).find? (fun b => b.name = a.name) = some b := by
    rw [← Option.isSome_iff_exists, List.find?_isSome]
    exact ⟨a, hmem, by simp⟩
  have hbname : b.name = a.name := by simpa using List.find?_some hb
  have hbknown : r.Known b :=
    (r.mem_usedArrays_iff b).mp ((arrayOrder.mem_toList _ _).mp (List.mem_of_find?_eq_some hb))
  rw [interp, hb, hnames b a (.inr hbknown) (.inr ha) hbname]
  rfl

theorem eval_element (ha : I a.name = some (arrayValue (C a))) {i : ℕ} (hi : i < 2 ^ 32) :
    (element a i).eval I = some (.bitVec ⟨8, C a i⟩) := by
  have hindex : (Literal.dec i KArray.domain).value = some (APInt.ofNat 32 i) := by
    rw [Literal.value, if_pos ⟨by decide, hi⟩]
  rw [element, Term.eval, Term.eval, Term.eval, ha, hindex]
  change (if KArray.domain = 32 then some (Value.bitVec ⟨8,
    C a ((BitVec.ofNat 32 i).setWidth 32).toNat⟩) else none) = _
  rw [if_pos rfl, BitVec.setWidth_eq, BitVec.toNat_ofNat, Nat.mod_eq_of_lt hi]

/-- The definition of an element says what the element is. -/
theorem eval_definition (hr : r.Proper) (ha : I a.name = some (arrayValue (C a)))
    (hp : p.2 < 2 ^ 32) {t : LetTerm} (ht : Command.assert t = r.definition a p.2 p.1) :
    t.eval I = some (.bool (decide (C a p.2 = p.1))) := by
  obtain rfl := Command.assert.inj ht
  have hconstant : (ExprSMTLIBPrinter.printConstant .DECIMAL ⟨KArray.range, p.1⟩).eval I
      = some (.bitVec ⟨8, p.1⟩) := eval_printConstant (Nat.zero_lt_succ 7)
  rw [LetTerm.eval_nil, hr.decimal, Term.eval, eval_element ha hp, hconstant]
  change (if 8 = 8 then some (Value.bool (C a p.2 == p.1.setWidth 8)) else none) = _
  rw [if_pos rfl, BitVec.setWidth_eq, beq_eq_decide]

theorem exists_assert_of_mem_printAssertions {c : Command} (hc : c ∈ r.printAssertions exprOrder) :
    ∃ t, c = .assert t := by
  unfold printAssertions at hc
  split at hc
  · exact ⟨_, List.mem_singleton.mp hc⟩
  · obtain ⟨e, -, rfl⟩ := List.mem_map.mp hc
    exact ⟨_, rfl⟩

theorem index_lt (ha : a.size < 2 ^ 32) (hp : p ∈ a.constantValues.zipIdx) : p.2 < 2 ^ 32 := by
  obtain ⟨hlt, -⟩ := List.getElem?_eq_some_iff.mp (List.mem_zipIdx_iff_getElem?.mp hp)
  rcases a.wf with hnil | hlen
  · rw [hnil] at hlt
    exact absurd hlt (Nat.not_lt_zero _)
  · omega

/-! ## Meaning -/

variable (arrayOrder) (exprOrder) (r)

/-- The script means the query: its terms denote the values of the parts of the
asserted expressions at every sort, it is well formed, and it is satisfiable
exactly when some contents satisfy the constraints and not the query expression. -/
structure MeansQuery : Prop where
  terms : ∀ (I : Interp) (C : Contents), r.Represents I C → ∀ e ∈ r.asserted, ∀ x ∈ e.deep, ∀ s,
    (printExpression r.constantDisplayMode (r.usedAbbreviations exprOrder) x s).eval
      (r.scope exprOrder I) = some (valueAs s (x.evalOn C))
  wellFormed : Script.WellFormed (r.generateOutput arrayOrder exprOrder)
  satisfiable : Script.Satisfiable (r.generateOutput arrayOrder exprOrder)
    ↔ ∃ C : Contents, C.Respects ∧ (∀ c ∈ r.query.constraints, c.HoldsOn C)
      ∧ ¬r.query.expr.HoldsOn C

variable {arrayOrder} {exprOrder} {r}

section Meaning

variable (hr : r.Proper) (hnames : r.NamesDiffer)
  (hlet : r.useLetExpressions = true → r.Abbreviable)

include hr

/-- The asserted expressions hold where the constraints do and the query
expression does not. -/
theorem forall_asserted_iff (C : Contents) :
    (∀ e ∈ r.asserted, e.HoldsOn C)
      ↔ (∀ c ∈ r.query.constraints, c.HoldsOn C) ∧ ¬r.query.expr.HoldsOn C := by
  rw [asserted, List.forall_mem_append, List.forall_mem_singleton, queryAssert,
    hr.expr.1.holdsOn_createIsZero]

include hnames hlet

/-- Where the arrays that are read are declared, every command is in order. -/
theorem wellFormed_generateOutput (hknown : ∀ a, r.Read a → r.Known a) :
    Script.WellFormed (r.generateOutput arrayOrder exprOrder) := by
  rw [wellFormed_generateOutput_iff]
  -- the sorts are those of the values under some contents
  obtain ⟨C, -⟩ : ∃ C : Contents, C = fun _ _ => 0 := ⟨_, rfl⟩
  have hΓ : (fun name => (r.interp arrayOrder C name).map Value.sort)
      = fun name => (r.declarations arrayOrder).lookup name :=
    funext (r.sort_interp arrayOrder C)
  have hI : r.Represents (r.interp arrayOrder C) C :=
    fun a ha => interp_of_known hnames (hknown a ha) C
  have hassert : ∀ t : LetTerm, ∀ b, t.eval (r.interp arrayOrder C) = some (.bool b) →
      (Command.assert t).Ok (r.declarations arrayOrder) := by
    intro t b ht
    have hsort := t.sort_eval (r.interp arrayOrder C)
    rw [ht, hΓ] at hsort
    exact hsort.symm
  constructor
  · rw [declarations, List.map_map, List.nodup_map_iff_inj_on (arrayOrder.nodup _)]
    intro a ha b hb hname
    rw [arrayOrder.mem_toList, mem_usedArrays_iff] at ha hb
    exact hnames a b (.inr ha) (.inr hb) hname
  · intro c hc
    rcases List.mem_append.mp hc with hc | hc
    · split at hc
      · obtain ⟨a, ha, hc⟩ := List.mem_flatMap.mp hc
        rw [arrayOrder.mem_toList, mem_usedArrays_iff] at ha
        split at hc
        · obtain ⟨p, hp, rfl⟩ := List.mem_map.mp hc
          exact hassert _ _ (eval_definition hr (interp_of_known hnames ha C)
            (index_lt (hr.sizes a (.inr ha)) hp) rfl)
        · exact absurd hc List.not_mem_nil
      · exact absurd hc List.not_mem_nil
    · rcases List.mem_append.mp hc with hc | hc
      · obtain ⟨t, rfl⟩ := exists_assert_of_mem_printAssertions hc
        obtain ⟨b, hb⟩ := (printAssertions_true hr hlet hI).1 t hc
        exact hassert t b hb
      · rcases List.mem_append.mp hc with hc | hc
        · rcases List.mem_cons.mp hc with rfl | hc
          · trivial
          · obtain ⟨a, ha, hc⟩ := List.mem_flatMap.mp hc
            obtain ⟨i, hi, rfl⟩ := List.mem_map.mp hc
            have hlt : i < 2 ^ 32 := (List.mem_range.mp hi).trans (hr.sizes a (.inr (.inr ha)))
            have hsort := (element a i).sort_eval (r.interp arrayOrder C)
            rw [eval_element (interp_of_known hnames (.inr ha) C) hlt, hΓ] at hsort
            exact Option.isSome_of_eq_some hsort.symm
        · rw [List.mem_singleton.mp hc]
          trivial

/-- Contents that satisfy the query make an interpretation of the script. -/
theorem satisfiable_of_contents (hknown : ∀ a, r.Read a → r.Known a) {C : Contents}
    (hC : C.Respects) (hasserted : ∀ e ∈ r.asserted, e.HoldsOn C) :
    Script.Satisfiable (r.generateOutput arrayOrder exprOrder) := by
  have hI : r.Represents (r.interp arrayOrder C) C :=
    fun a ha => interp_of_known hnames (hknown a ha) C
  refine ⟨r.interp arrayOrder C, fun name => ?_, fun t ht => ?_⟩
  · rw [sort_interp, declared_generateOutput]
    rfl
  · rcases (r.mem_assertions_generateOutput arrayOrder exprOrder t).mp ht with
      ⟨-, a, ha, -, p, hp, hdef⟩ | ht
    · rw [mem_usedArrays_iff] at ha
      rw [eval_definition hr (interp_of_known hnames ha C) (index_lt (hr.sizes a (.inr ha)) hp) hdef,
        decide_eq_true (hC a p hp)]
    · exact ((printAssertions_true hr hlet hI).2.mpr hasserted) t ht

end Meaning

/-- The bytes that an interpretation gives a name. -/
def bytesOf (I : Interp) (name : String) (n : ℕ) : BitVec 8 :=
  match I name with
  | some (.array d _ f) => (f (BitVec.ofNat d n)).setWidth 8
  | _ => 0

theorem arrayValue_bytesOf {v : Value} (h : I name = some v)
    (hv : v.sort = .array KArray.domain KArray.range) : v = arrayValue (bytesOf I name) := by
  cases v with
  | bool b => exact absurd hv (by simp)
  | bitVec x => exact absurd hv (by simp)
  | array d w f =>
    obtain ⟨rfl, rfl⟩ := Srt.array.inj hv
    rw [arrayValue]
    congr 1
    funext i
    rw [bytesOf, h]
    change f i = (f (BitVec.ofNat 32 i.toNat)).setWidth 8
    rw [BitVec.ofNat_toNat, BitVec.setWidth_eq, BitVec.setWidth_eq]

/-- The contents that an interpretation gives the arrays that are read; the
others have their constant values. -/
noncomputable def contentsOf (r : SMTLIBRequest) (I : Interp) : Contents := by
  classical
  exact fun a n => if r.Read a then bytesOf I a.name n else a.constantValues.getD n 0

theorem contentsOf_of_read (ha : r.Read a) :
    r.contentsOf I a = bytesOf I a.name := by
  funext n
  rw [contentsOf, if_pos ha]

section Meaning

variable (hr : r.Proper) (hnames : r.NamesDiffer)
  (hlet : r.useLetExpressions = true → r.Abbreviable)

include hr hnames hlet

/-- An interpretation of the script makes contents that satisfy the query. -/
theorem contents_of_satisfiable (hknown : ∀ a, r.Read a → r.Known a)
    (hconst : ∀ a, r.Read a → a.isConstantArray = true →
      ∃ b, r.Reached b ∧ b.isConstantArray = true)
    (h : Script.Satisfiable (r.generateOutput arrayOrder exprOrder)) :
    ∃ C : Contents, C.Respects ∧ ∀ e ∈ r.asserted, e.HoldsOn C := by
  obtain ⟨I, hinterprets, htrue⟩ := h
  have hI : r.Represents I (r.contentsOf I) := by
    intro a ha
    -- the array is declared, so it has a value of the right sort
    have hsort := hinterprets a.name
    rw [declared_generateOutput] at hsort
    have hlookup := r.sort_interp arrayOrder (r.contentsOf I) a.name
    rw [interp_of_known hnames (hknown a ha)] at hlookup
    rw [declarations] at hlookup
    rw [← hlookup] at hsort
    obtain ⟨v, hv, hvsort⟩ := Option.map_eq_some_iff.mp hsort
    rw [hv, contentsOf_of_read ha, ← arrayValue_bytesOf hv hvsort]
  have hassertions := r.mem_assertions_generateOutput arrayOrder exprOrder
  refine ⟨r.contentsOf I, fun a p hp => ?_, ?_⟩
  · by_cases ha : r.Read a
    · have hcons : a.isConstantArray = true := by
        cases hvalues : a.constantValues with
        | nil => simp [hvalues] at hp
        | cons v vs => simp [KArray.isConstantArray, KArray.isSymbolicArray, hvalues]
      have hflag := r.haveConstantArray_iff.mpr (hconst a ha hcons)
      have hused := (r.mem_usedArrays_iff a).mpr (hknown a ha)
      obtain ⟨t, ht⟩ : ∃ t, Command.assert t = r.definition a p.2 p.1 := ⟨_, rfl⟩
      have heval := htrue t ((hassertions t).mpr (.inl ⟨hflag, a, hused, hcons, p, hp, ht⟩))
      rw [eval_definition hr (hI a ha) (index_lt (hr.sizes a (.inl ha)) hp) ht, Option.some.injEq,
        Value.bool.injEq] at heval
      exact of_decide_eq_true heval
    · obtain ⟨hlt, hp⟩ := List.getElem?_eq_some_iff.mp (List.mem_zipIdx_iff_getElem?.mp hp)
      rw [contentsOf, if_neg ha, List.getD_eq_getElem _ _ hlt, hp]
  · exact (printAssertions_true hr hlet hI).2.mp fun t ht => htrue t ((hassertions t).mpr (.inr ht))

omit hr hnames in
/-- In a well-formed script every array that is read has the name of a declared
one. -/
theorem exists_known_of_wellFormed
    (h : Script.WellFormed (r.generateOutput arrayOrder exprOrder)) {a : KArray} (ha : r.Read a) :
    ∃ b, r.Known b ∧ b.name = a.name := by
  have hmentioned := (r.mem_symbols_printAssertions exprOrder hlet a.name).mpr ⟨a, ha, rfl⟩
  obtain ⟨c, hc, hname⟩ := List.mem_flatMap.mp hmentioned
  obtain ⟨t, rfl⟩ := exists_assert_of_mem_printAssertions hc
  have hok := ((r.wellFormed_generateOutput_iff arrayOrder exprOrder).mp h).2
    (.assert t) (List.mem_append_right _ (List.mem_append_left _ hc))
  obtain ⟨srt, hsrt⟩ := Option.isSome_iff_exists.mp (t.mem_symbols_of_sort hok a.name hname)
  obtain ⟨l₁, l₂, hl, -⟩ := List.lookup_eq_some_iff.mp hsrt
  have hmem : (a.name, srt) ∈ r.declarations arrayOrder := by
    rw [hl]
    exact List.mem_append_right _ List.mem_cons_self
  obtain ⟨b, hb, hbname⟩ := List.mem_map.mp hmem
  rw [arrayOrder.mem_toList, mem_usedArrays_iff] at hb
  exact ⟨b, hb, congrArg Prod.fst hbname⟩

/-- The printed script means the query exactly when every array that is read in
the asserted expressions is declared, for requests of the kind that is made, in
which distinct arrays have distinct names. -/
theorem meansQuery_iff
    (hconst : ∀ a, r.Read a → a.isConstantArray = true →
      ∃ b, r.Reached b ∧ b.isConstantArray = true) :
    r.MeansQuery arrayOrder exprOrder ↔ ∀ a, r.Read a → r.Known a := by
  constructor
  · intro h a ha
    obtain ⟨b, hb, hname⟩ := exists_known_of_wellFormed hlet h.wellFormed ha
    rwa [← hnames b a (.inr hb) (.inl ha) hname]
  · intro hknown
    refine ⟨fun I C hI e he x hx s => eval_asserted hr hlet hI he hx s,
      wellFormed_generateOutput hr hnames hlet hknown, ?_⟩
    constructor
    · intro h
      obtain ⟨C, hC, hasserted⟩ := contents_of_satisfiable hr hnames hlet hknown hconst h
      exact ⟨C, hC, (forall_asserted_iff hr C).mp hasserted⟩
    · rintro ⟨C, hC, hquery⟩
      exact satisfiable_of_contents hr hnames hlet hknown hC ((forall_asserted_iff hr C).mpr hquery)

end Meaning

/-! ### Two scripts -/

/-- The other array is read and not declared: the script is not well formed. -/
theorem hiddenRequest_meaningless :
    hiddenRequest.Proper ∧ ¬hiddenRequest.MeansQuery (.some KArray) (.some Expr) := by
  have hused : hiddenRequest.usedArrays = {arrayX} := by decide
  have hknown : ∀ a, hiddenRequest.Known a → a = arrayX := by
    intro a ha
    have hmem := (hiddenRequest.mem_usedArrays_iff a).mpr ha
    rw [hused] at hmem
    exact Finset.mem_singleton.mp hmem
  have hread : ∀ e ∈ hiddenRequest.asserted, ∀ x ∈ e.deep,
      x.readOf (fun ul => ul.array.size < 2 ^ 32) = true := by
    decide
  refine ⟨⟨rfl, by decide, by decide, fun a ha => ?_⟩, fun h => ?_⟩
  · rcases ha with ⟨e, he, ul, i, hmem, rfl⟩ | ha
    · exact of_decide_eq_true (hread e he _ hmem)
    · rw [hknown a ha]
      decide
  · have hy : hiddenRequest.Read arrayY :=
      ⟨hiddenRequest.queryAssert, List.mem_append_right _ (List.mem_singleton_self _),
        .root arrayY, .Constant ⟨32, 0⟩, by decide, rfl⟩
    obtain ⟨b, hb, hname⟩ :=
      exists_known_of_wellFormed (fun h => absurd h (by decide)) h.wellFormed hy
    rw [hknown b hb] at hname
    exact absurd hname (by decide)

/-- The script with an abbreviated read. -/
theorem meansQuery_iff_shared :
    sharedRequest.MeansQuery (.some KArray) (.some Expr)
      ↔ ∀ a, sharedRequest.Read a → sharedRequest.Known a := by
  have hall : ∀ e ∈ sharedRequest.asserted, ∀ x ∈ e.deep,
      x.readOf (fun ul => ul = .root arrayX) = true := by
    decide
  have hread : ∀ a, sharedRequest.Read a → a = arrayX := by
    rintro a ⟨e, he, ul, i, hmem, rfl⟩
    rw [of_decide_eq_true (hall e he _ hmem)]
    rfl
  have hused : sharedRequest.usedArrays = {arrayX} := by decide
  have hknown : ∀ a, sharedRequest.Known a → a = arrayX := by
    intro a ha
    have hmem := (sharedRequest.mem_usedArrays_iff a).mpr ha
    rw [hused] at hmem
    exact Finset.mem_singleton.mp hmem
  have hx : ∀ a, sharedRequest.Read a ∨ sharedRequest.Known a → a = arrayX := by
    rintro a (ha | ha)
    · exact hread a ha
    · exact hknown a ha
  refine meansQuery_iff ⟨rfl, by decide, by decide, fun a ha => ?_⟩ (fun a b ha hb _ => ?_)
    (fun _ => ⟨fun a ha => ?_, fun a ha n => ?_⟩) (fun a ha hconst => ?_)
  · rw [hx a ha]
    decide
  · rw [hx a ha, hx b hb]
  · obtain ⟨ul, i, hmem, rfl⟩ := ha
    exact ⟨sharedRequest.queryAssert, List.mem_append_right _ (List.mem_singleton_self _), ul, i,
      List.mem_cons_of_mem _ (List.mem_cons_of_mem _ hmem), rfl⟩
  · rw [hread a ha]
    intro h
    have hchars := congrArg String.toList h
    rw [String.toList_append] at hchars
    exact absurd (List.cons.inj hchars).1 (by decide)
  · rw [hread a ha] at hconst
    exact absurd hconst (by decide)

end SMTLIBRequest

end Xklee
