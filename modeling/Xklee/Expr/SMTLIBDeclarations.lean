/-
The arrays that an SMT-LIB script mentions and the arrays that it declares.

The printed assertions mention every array that is read in them, update lists
included (`mem_symbols_printExpression`). The declared arrays are those the scan
comes to and those whose values are asked for. `DeclaresArrays` says that the
two fit together, and `declaresArrays_iff` says when they do.
-/
import Xklee.Expr.SMTLIBScan

set_option autoImplicit false

namespace Xklee

open SMTLIB (Term LetTerm Command Script Logic)

namespace ExprSMTLIBPrinter

/-! ## The symbols of a printed expression -/

section Symbols

variable {cdm : ConstantDisplayMode} {abbreviations : Abbreviations}

@[simp] theorem symbols_printConstant (c : APInt) : (printConstant cdm c).symbols = [] := by
  unfold printConstant
  split
  · rfl
  · split
    · rfl
    · cases cdm <;> rfl

@[simp] theorem symbols_printCastToSort (e : Expr) (printed : Term) (s : SMTLIB_SORT) :
    (printCastToSort e printed s).symbols = printed.symbols := by
  cases s <;> simp [printCastToSort, Term.symbols]

/-- A cast adds no symbol. -/
theorem symbols_printAs (e : Expr) (node : Printed) (s : SMTLIB_SORT) :
    (printAs abbreviations e node s).symbols =
      match abbreviations e with
      | some name => [name]
      | none => (node (getSort e)).symbols := by
  unfold printAs
  cases abbreviations e with
  | none =>
    dsimp only
    split
    · rw [symbols_printCastToSort]
    · rfl
  | some name =>
    dsimp only
    split
    · rw [symbols_printCastToSort]
      rfl
    · rfl

variable {e : Expr} {name : String}

theorem symbols_printAs_none (h : abbreviations e = none) (node : Printed) (s : SMTLIB_SORT) :
    (printAs abbreviations e node s).symbols = (node (getSort e)).symbols := by
  rw [symbols_printAs, h]

/-- Which symbols there are does not depend on the sort that is expected. -/
theorem symbols_printExpression_sort (e : Expr) (s s' : SMTLIB_SORT) :
    (printExpression cdm abbreviations e s).symbols
      = (printExpression cdm abbreviations e s').symbols := by
  have h : ∀ e node, (printAs abbreviations e node s).symbols
      = (printAs abbreviations e node s').symbols := by
    intro e node
    rw [symbols_printAs, symbols_printAs]
  cases e <;> exact h _ _

theorem mem_symbols_printUpdatesAndArray {ul : UpdateList} (s : SMTLIB_SORT) :
    name ∈ (printUpdatesAndArray cdm abbreviations ul).symbols
      ↔ ul.array.name = name
        ∨ ∃ k ∈ ul.exprs, name ∈ (printExpression cdm abbreviations k s).symbols := by
  induction ul using UpdateList.nodeInduction with
  | root a =>
    change name ∈ [a.name] ↔ _
    simp [UpdateList.exprs, eq_comm]
  | extend i v next ih =>
    change name ∈ (printUpdatesAndArray cdm abbreviations next).symbols
      ++ (printExpression cdm abbreviations i .SORT_BITVECTOR).symbols
      ++ (printExpression cdm abbreviations v .SORT_BITVECTOR).symbols ↔ _
    rw [symbols_printExpression_sort i _ s, symbols_printExpression_sort v _ s, List.mem_append,
      List.mem_append, ih]
    simp only [UpdateList.exprs, UpdateList.array_extend, List.exists_mem_cons_iff]
    simp only [or_comm, or_left_comm]

/-- The symbols of a node that is not abbreviated: the array that it reads, and
the symbols of its parts. -/
theorem mem_symbols_node (h : abbreviations e = none) (s : SMTLIB_SORT) :
    name ∈ (printExpression cdm abbreviations e s).symbols
      ↔ (∃ ul i, e = .Read ul i ∧ ul.array.name = name)
        ∨ ∃ k ∈ e.parts, name ∈ (printExpression cdm abbreviations k s).symbols := by
  have hsort : ∀ k s', (printExpression cdm abbreviations k s').symbols
      = (printExpression cdm abbreviations k s).symbols :=
    fun k s' => symbols_printExpression_sort k s' s
  cases e with
  | Constant c =>
    change name ∈ (printAs abbreviations _ _ s).symbols ↔ _
    rw [symbols_printAs_none h, symbols_printConstant]
    simp [Expr.parts, Expr.kids]
  | NotOptimized e =>
    change name ∈ (printAs abbreviations _ _ s).symbols ↔ _
    rw [symbols_printAs_none h, hsort]
    simp [Expr.parts, Expr.kids]
  | Read ul i =>
    change name ∈ (printAs abbreviations _ _ s).symbols ↔ _
    rw [symbols_printAs_none h]
    change name ∈ (printUpdatesAndArray cdm abbreviations ul).symbols
      ++ (printExpression cdm abbreviations i .SORT_BITVECTOR).symbols ↔ _
    rw [List.mem_append, mem_symbols_printUpdatesAndArray s, hsort]
    simp only [Expr.parts, List.exists_mem_cons_iff, Expr.Read.injEq]
    constructor
    · rintro ((hname | hk) | hi)
      · exact .inl ⟨ul, i, ⟨rfl, rfl⟩, hname⟩
      · exact .inr (.inr hk)
      · exact .inr (.inl hi)
    · rintro (⟨ul', i', ⟨rfl, rfl⟩, hname⟩ | hi | hk)
      · exact .inl (.inl hname)
      · exact .inr hi
      · exact .inl (.inr hk)
  | Select c t f =>
    change name ∈ (printAs abbreviations _ _ s).symbols ↔ _
    rw [symbols_printAs_none h, printSelectExpr, Term.symbols, hsort c, hsort t, hsort f]
    simp [Expr.parts, Expr.kids]
  | Concat l r =>
    change name ∈ (printAs abbreviations _ _ s).symbols ↔ _
    rw [symbols_printAs_none h, Term.symbols, hsort l, hsort r]
    simp [Expr.parts, Expr.kids]
  | Extract e off w =>
    change name ∈ (printAs abbreviations _ _ s).symbols ↔ _
    rw [symbols_printAs_none h, printExtractExpr, Term.symbols, hsort e]
    simp [Expr.parts, Expr.kids]
  | Cast k e w =>
    change name ∈ (printAs abbreviations _ _ s).symbols ↔ _
    rw [symbols_printAs_none h]
    cases k <;> simp [Expr.parts, Expr.kids, printCastExpr, Term.symbols, hsort e]
  | Not e =>
    change name ∈ (printAs abbreviations _ _ s).symbols ↔ _
    rw [symbols_printAs_none h]
    cases getSort (.Not e) <;> simp [Expr.parts, Expr.kids, printNot, Term.symbols, hsort e]
  | Binary k l r =>
    change name ∈ (printAs abbreviations _ _ s).symbols ↔ _
    rw [symbols_printAs_none h]
    unfold printBinary
    split <;> simp [Expr.parts, Expr.kids, Term.symbols, hsort l, hsort r]
  | Cmp k l r =>
    change name ∈ (printAs abbreviations _ _ s).symbols ↔ _
    rw [symbols_printAs_none h]
    cases k <;> simp [Expr.parts, Expr.kids, printCmp, Term.symbols, hsort l, hsort r]

/-- A printed expression mentions arrays that are read in it and abbreviations. -/
theorem of_mem_symbols_printExpression {s : SMTLIB_SORT}
    (h : name ∈ (printExpression cdm abbreviations e s).symbols) :
    (∃ a ∈ e.arrays, a.name = name) ∨ ∃ x, abbreviations x = some name := by
  induction e using Expr.partsInduction with | _ e ih =>
  cases habbr : abbreviations e with
  | some name' =>
    have hsymbols : (printExpression cdm abbreviations e s).symbols = [name'] := by
      cases e <;> exact (symbols_printAs _ _ _).trans (by rw [habbr])
    rw [hsymbols, List.mem_singleton] at h
    exact .inr ⟨e, by rw [habbr, h]⟩
  | none =>
    rcases (mem_symbols_node habbr s).mp h with ⟨ul, i, rfl, hname⟩ | ⟨k, hk, hname⟩
    · exact .inl ⟨ul.array, Expr.mem_arrays_iff.mpr (.inl ⟨ul, i, rfl, rfl⟩), hname⟩
    · rcases ih k hk hname with ⟨a, ha, hname⟩ | habbreviation
      · exact .inl ⟨a, Expr.mem_arrays_of_part hk ha, hname⟩
      · exact .inr habbreviation

/-- It mentions all of them but those inside of abbreviated expressions. -/
theorem mem_symbols_of_mem_arrays (s : SMTLIB_SORT) {a : KArray} (h : a ∈ e.arrays) :
    a.name ∈ (printExpression cdm abbreviations e s).symbols
      ∨ ∃ x name, abbreviations x = some name ∧ a ∈ x.arrays := by
  induction e using Expr.partsInduction with | _ e ih =>
  cases habbr : abbreviations e with
  | some name => exact .inr ⟨e, name, habbr, h⟩
  | none =>
    rcases Expr.mem_arrays_iff.mp h with ⟨ul, i, rfl, rfl⟩ | ⟨k, hk, ha⟩
    · exact .inl ((mem_symbols_node habbr s).mpr (.inl ⟨ul, i, rfl, rfl⟩))
    · rcases ih k hk ha with hname | habbreviation
      · exact .inl ((mem_symbols_node habbr s).mpr (.inr ⟨k, hk, hname⟩))
      · exact .inr habbreviation

end Symbols

/-- Without abbreviations the symbols are the names of the arrays. -/
theorem mem_symbols_printExpression {cdm : ConstantDisplayMode} {e : Expr} {s : SMTLIB_SORT}
    {name : String} :
    name ∈ (printExpression cdm (fun _ => none) e s).symbols ↔ ∃ a ∈ e.arrays, a.name = name := by
  constructor
  · intro h
    rcases of_mem_symbols_printExpression h with harray | ⟨x, hx⟩
    · exact harray
    · exact absurd hx (by simp)
  · rintro ⟨a, ha, rfl⟩
    rcases mem_symbols_of_mem_arrays s ha with hname | ⟨x, name, hx, -⟩
    · exact hname
    · exact absurd hx (by simp)

end ExprSMTLIBPrinter

namespace SMTLIBRequest

open ExprSMTLIBPrinter (mem_symbols_printExpression of_mem_symbols_printExpression
  mem_symbols_of_mem_arrays)

variable (arrayOrder : SetOrder KArray) (exprOrder : SetOrder Expr) (r : SMTLIBRequest)

/-! ## What the script declares -/

theorem declares_definitions :
    ((if r.arrayScan.haveConstantArray then
      (arrayOrder.toList r.usedArrays).flatMap
        (fun array => if array.isConstantArray then r.definitions array else [])
      else []).flatMap Command.declares) = [] := by
  rw [List.flatMap_eq_nil_iff]
  intro c hc
  split at hc
  · obtain ⟨array, -, hc⟩ := List.mem_flatMap.mp hc
    split at hc
    · obtain ⟨p, -, rfl⟩ := List.mem_map.mp hc
      rfl
    · exact absurd hc List.not_mem_nil
  · exact absurd hc List.not_mem_nil

theorem declares_printAssertions : (r.printAssertions exprOrder).flatMap Command.declares = [] := by
  rw [List.flatMap_eq_nil_iff]
  intro c hc
  unfold printAssertions at hc
  split at hc
  · rw [List.mem_singleton.mp hc]
    rfl
  · obtain ⟨e, -, rfl⟩ := List.mem_map.mp hc
    rfl

theorem declares_printAction : r.printAction.flatMap Command.declares = [] := by
  rw [List.flatMap_eq_nil_iff]
  intro c hc
  rcases List.mem_cons.mp hc with rfl | hc
  · rfl
  · obtain ⟨array, -, hc⟩ := List.mem_flatMap.mp hc
    obtain ⟨index, -, rfl⟩ := List.mem_map.mp hc
    rfl

/-- The declarations of the script are those of the used arrays, in their order. -/
theorem declared_generateOutput :
    Script.declared (r.generateOutput arrayOrder exprOrder)
      = (arrayOrder.toList r.usedArrays).map
        (fun a => (a.name, .array KArray.domain KArray.range)) := by
  have hdeclarations : ((arrayOrder.toList r.usedArrays).map declaration).flatMap Command.declares
      = (arrayOrder.toList r.usedArrays).map
        (fun a => (a.name, .array KArray.domain KArray.range)) := by
    rw [List.flatMap_map, List.map_eq_flatMap]
    rfl
  rw [Script.declared, generateOutput, List.flatMap_append, List.flatMap_append,
    List.flatMap_append, List.flatMap_cons, printArrayDeclarations, List.flatMap_append,
    hdeclarations, declares_definitions, declares_printAssertions, declares_printAction]
  simp [Command.declares]

theorem mem_declared_iff (name : String) :
    name ∈ (Script.declared (r.generateOutput arrayOrder exprOrder)).map Prod.fst
      ↔ ∃ a ∈ r.usedArrays, a.name = name := by
  rw [declared_generateOutput, List.map_map, List.mem_map]
  simp only [arrayOrder.mem_toList, Function.comp_apply]

/-! ## What the script mentions -/

/-- The expressions that are asserted. -/
def asserted : List Expr := r.query.constraints ++ [r.queryAssert]

/-- An array is read in an asserted expression. -/
def Read (a : KArray) : Prop := ∃ e ∈ r.asserted, a ∈ e.arrays

/-- The value of some element of the array is asked for. -/
def Asked (a : KArray) : Prop := a ∈ r.arraysToCallGetValueOn ∧ 0 < a.size

theorem mem_symbols_printConstraintsAndQuery (name : String) :
    name ∈ r.printConstraintsAndQuery.flatMap Command.symbols ↔ ∃ a, r.Read a ∧ a.name = name := by
  have hsymbols : ∀ e, Command.symbols (.assert ⟨[], r.printBool (fun _ => none) e⟩)
      = (r.printBool (fun _ => none) e).symbols := by
    intro e
    simp [Command.symbols, LetTerm.symbols]
  rw [printConstraintsAndQuery, List.flatMap_map, List.mem_flatMap]
  simp only [hsymbols]
  simp only [printBool, mem_symbols_printExpression]
  constructor
  · rintro ⟨e, he, a, ha, hname⟩
    exact ⟨a, ⟨e, he, ha⟩, hname⟩
  · rintro ⟨a, ⟨e, he, ha⟩, hname⟩
    exact ⟨e, he, a, ha, hname⟩

theorem mem_symbols_printAction (name : String) :
    name ∈ r.printAction.flatMap Command.symbols ↔ ∃ a, r.Asked a ∧ a.name = name := by
  have hsymbols : ∀ a i, Command.symbols (.getValue (element a i)) = [a.name] := fun _ _ => rfl
  rw [printAction, List.flatMap_cons, List.flatMap_assoc]
  simp only [List.flatMap_map, hsymbols]
  constructor
  · intro h
    obtain ⟨a, ha, h⟩ := List.mem_flatMap.mp h
    obtain ⟨i, hi, h⟩ := List.mem_flatMap.mp h
    exact ⟨a, ⟨ha, Nat.zero_lt_of_lt (List.mem_range.mp hi)⟩, (List.mem_singleton.mp h).symm⟩
  · rintro ⟨a, ⟨ha, hsize⟩, rfl⟩
    refine List.mem_flatMap.mpr ⟨a, ha, List.mem_flatMap.mpr ⟨0, List.mem_range.mpr hsize, ?_⟩⟩
    exact List.mem_singleton_self _

/-- Negating the query expression keeps its arrays, and no array is named like
the binding of an abbreviation. -/
structure Abbreviable : Prop where
  kept : ∀ a ∈ r.query.expr.arrays, r.Read a
  unreserved : ∀ a, r.Read a → ∀ n : ℕ, a.name ≠ "?B" ++ toString n

section Let

variable {exprOrder} {r}

theorem mem_bindings_of_abbreviations {x : Expr} {name : String}
    (h : r.abbreviations exprOrder x = some name) : (x, name) ∈ r.bindings exprOrder := by
  obtain ⟨l₁, l₂, hl, -⟩ := List.lookup_eq_some_iff.mp h
  rw [hl]
  exact List.mem_append_right _ List.mem_cons_self

theorem of_mem_bindings {p : Expr × String} (h : p ∈ r.bindings exprOrder) :
    p.1 ∈ r.letScan.twoOrMoreEO ∧ ∃ n : ℕ, p.2 = "?B" ++ toString n := by
  obtain ⟨q, hq, rfl⟩ := List.mem_map.mp h
  refine ⟨?_, q.2, rfl⟩
  rw [← exprOrder.mem_toList]
  have hfst := List.mem_map_of_mem (f := Prod.fst) hq
  rwa [List.zipIdx_map_fst] at hfst

/-- The symbols of the nested conjunctions. -/
theorem mem_symbols_foldr {f : Expr → Term} {es : List Expr} {last : Term} {name : String} :
    name ∈ (es.foldr (fun e rest => .app₂ (.bool .and) (f e) rest) last).symbols
      ↔ (∃ e ∈ es, name ∈ (f e).symbols) ∨ name ∈ last.symbols := by
  induction es with
  | nil => simp
  | cons e es ih =>
    rw [List.foldr_cons, Term.symbols, List.mem_append, ih, List.exists_mem_cons_iff, or_assoc]

/-- The assertion with `let` mentions the arrays that are read. -/
theorem mem_symbols_printLetExpression (h : r.Abbreviable) (name : String) :
    name ∈ (r.printLetExpression exprOrder).flatMap Command.symbols
      ↔ ∃ a, r.Read a ∧ a.name = name := by
  have hbody : ∀ name', name' ∈ (r.query.constraints.foldr
        (fun e rest => .app₂ (.bool .and) (r.printBool (r.abbreviations exprOrder) e) rest)
        (r.printBool (r.abbreviations exprOrder) r.queryAssert)).symbols
      ↔ ∃ e ∈ r.asserted, name' ∈ (r.printBool (r.abbreviations exprOrder) e).symbols := by
    intro name'
    rw [mem_symbols_foldr, asserted]
    simp only [List.mem_append, List.mem_singleton, or_and_right, exists_or, exists_eq_left]
  rw [printLetExpression, List.flatMap_singleton, Command.symbols, LetTerm.symbols,
    List.mem_append, List.mem_filter, hbody, List.flatMap_map, List.mem_flatMap]
  constructor
  · rintro (⟨p, hp, hname⟩ | ⟨⟨e, he, hname⟩, hfree⟩)
    · obtain ⟨a, ha, rfl⟩ := mem_symbols_printExpression.mp hname
      obtain ⟨e, he, hdeep⟩ := r.mem_deep_of_mem_twoOrMoreEO (of_mem_bindings hp).1
      have hae : a ∈ e.arrays := by
        obtain ⟨ul, i, hread, rfl⟩ := ha
        exact ⟨ul, i, Expr.deep_trans hdeep hread, rfl⟩
      rcases List.mem_append.mp he with he | he
      · exact ⟨a, ⟨e, List.mem_append_left _ he, hae⟩, rfl⟩
      · rw [List.mem_singleton.mp he] at hae
        exact ⟨a, h.kept a hae, rfl⟩
    · rcases of_mem_symbols_printExpression hname with ⟨a, ha, rfl⟩ | ⟨x, hx⟩
      · exact ⟨a, ⟨e, he, ha⟩, rfl⟩
      · -- the name of an abbreviation is bound
        have hbound := mem_bindings_of_abbreviations hx
        rw [Option.isNone_iff_eq_none, List.lookup_eq_none_iff] at hfree
        have := hfree (name, ExprSMTLIBPrinter.printExpression r.constantDisplayMode
          (fun _ => none) x (ExprSMTLIBPrinter.getSort x)) (List.mem_map.mpr ⟨_, hbound, rfl⟩)
        simp at this
  · rintro ⟨a, ⟨e, he, ha⟩, rfl⟩
    rcases mem_symbols_of_mem_arrays .SORT_BOOL ha with hname | ⟨x, name', hx, hax⟩
    · refine .inr ⟨⟨e, he, hname⟩, ?_⟩
      rw [Option.isNone_iff_eq_none, List.lookup_eq_none_iff]
      intro b hb
      obtain ⟨p, hp, rfl⟩ := List.mem_map.mp hb
      obtain ⟨n, hn⟩ := (of_mem_bindings hp).2
      rw [hn, bne_iff_ne]
      exact h.unreserved a ⟨e, he, ha⟩ n
    · exact .inl ⟨(x, name'), mem_bindings_of_abbreviations hx,
        mem_symbols_printExpression.mpr ⟨a, hax, rfl⟩⟩

end Let

/-- The assertions mention the arrays that are read, in both printers. -/
theorem mem_symbols_printAssertions (h : r.useLetExpressions = true → r.Abbreviable)
    (name : String) :
    name ∈ (r.printAssertions exprOrder).flatMap Command.symbols
      ↔ ∃ a, r.Read a ∧ a.name = name := by
  rw [printAssertions]
  split
  next hlet => exact mem_symbols_printLetExpression (h hlet) name
  next => exact r.mem_symbols_printConstraintsAndQuery name

/-! ## Declared and mentioned arrays -/

/-- The arrays of the script are in order: those that the assertions and the
`get-value` commands mention are those that are declared, each is declared once,
and each constant one has an equality for each of its elements. -/
structure DeclaresArrays : Prop where
  names : ∀ name,
    name ∈ (r.printAssertions exprOrder ++ r.printAction).flatMap Command.symbols
      ↔ name ∈ (Script.declared (r.generateOutput arrayOrder exprOrder)).map Prod.fst
  once : ((Script.declared (r.generateOutput arrayOrder exprOrder)).map Prod.fst).Nodup
  constants : ∀ a ∈ r.usedArrays, a.isConstantArray = true →
    ∀ p ∈ a.constantValues.zipIdx, r.definition a p.2 p.1 ∈ r.printArrayDeclarations arrayOrder

/-- The scan comes to a read of the array, or its values are asked for. -/
def Known (a : KArray) : Prop := r.Reached a ∨ a ∈ r.arraysToCallGetValueOn

/-- The condition for it. An array that is read somewhere is known: it is not
read in update lists alone that the scan passes over. An array that is known is
mentioned: the negation of the query expression does not lose it. Arrays that
are known have different names, and constant ones are not only asked for. -/
structure Scannable : Prop where
  known : ∀ a, r.Read a → ∃ b, r.Known b ∧ b.name = a.name
  mentioned : ∀ b, r.Known b → ∃ a, (r.Read a ∨ r.Asked a) ∧ a.name = b.name
  distinct : ∀ a b, r.Known a → r.Known b → a.name = b.name → a = b
  constants : ∀ a ∈ r.arraysToCallGetValueOn, a.isConstantArray = true →
    ∃ b, r.Reached b ∧ b.isConstantArray = true

variable {arrayOrder} {exprOrder} {r}

/-- Every constant array that is declared is defined when there is one that the
scan comes to, and no array is defined otherwise. -/
theorem definition_mem_iff {a : KArray} (ha : a ∈ r.usedArrays) (hconst : a.isConstantArray = true) :
    (∀ p ∈ a.constantValues.zipIdx, r.definition a p.2 p.1 ∈ r.printArrayDeclarations arrayOrder)
      ↔ ∃ b, r.Reached b ∧ b.isConstantArray = true := by
  rw [← haveConstantArray_iff]
  constructor
  · intro h
    have hpos : a.constantValues ≠ [] := by
      intro hnil
      simp [KArray.isConstantArray, KArray.isSymbolicArray, hnil] at hconst
    obtain ⟨v, vs, hvs⟩ := List.exists_cons_of_ne_nil hpos
    have hmem := h (v, 0) (by rw [hvs, List.zipIdx_cons]; exact List.mem_cons_self)
    by_contra hflag
    rw [printArrayDeclarations, if_neg hflag, List.append_nil] at hmem
    obtain ⟨b, -, hb⟩ := List.mem_map.mp hmem
    exact absurd hb (by simp [declaration, definition])
  · intro hflag p hp
    rw [printArrayDeclarations, if_pos hflag]
    refine List.mem_append_right _ (List.mem_flatMap.mpr ⟨a, ?_, ?_⟩)
    · exact (arrayOrder.mem_toList _ _).mpr ha
    · rw [if_pos hconst]
      exact List.mem_map_of_mem hp

/-- The script declares the arrays that it mentions, once, and defines the
constant ones, exactly when the query is `Scannable`. For the printer with `let`
this is stated where the negation of the query expression loses no array and no
array is named like an abbreviation. -/
theorem declaresArrays_iff (h : r.useLetExpressions = true → r.Abbreviable) :
    r.DeclaresArrays arrayOrder exprOrder ↔ r.Scannable := by
  have hmentions : ∀ name,
      name ∈ (r.printAssertions exprOrder ++ r.printAction).flatMap Command.symbols
        ↔ ∃ a, (r.Read a ∨ r.Asked a) ∧ a.name = name := by
    intro name
    rw [List.flatMap_append, List.mem_append, r.mem_symbols_printAssertions exprOrder h,
      mem_symbols_printAction]
    simp only [or_and_right, exists_or]
  have hknown : ∀ a, a ∈ r.usedArrays ↔ r.Known a := r.mem_usedArrays_iff
  have hdeclares : ∀ name,
      name ∈ (Script.declared (r.generateOutput arrayOrder exprOrder)).map Prod.fst
        ↔ ∃ a, r.Known a ∧ a.name = name := by
    intro name
    rw [mem_declared_iff]
    simp only [hknown]
  have honce : ((Script.declared (r.generateOutput arrayOrder exprOrder)).map Prod.fst).Nodup
      ↔ ∀ a b, r.Known a → r.Known b → a.name = b.name → a = b := by
    rw [declared_generateOutput, List.map_map, List.nodup_map_iff_inj_on (arrayOrder.nodup _)]
    simp only [arrayOrder.mem_toList, hknown, Function.comp_apply]
    exact ⟨fun hinj a b ha hb => hinj a ha b hb, fun hinj a ha b hb => hinj a b ha hb⟩
  constructor
  · intro hdecl
    refine ⟨fun a ha => ?_, fun b hb => ?_, honce.mp hdecl.once, fun a ha hconst => ?_⟩
    · have hname := (hmentions a.name).mpr ⟨a, .inl ha, rfl⟩
      exact (hdeclares a.name).mp ((hdecl.names a.name).mp hname)
    · have hname := (hdeclares b.name).mpr ⟨b, hb, rfl⟩
      exact (hmentions b.name).mp ((hdecl.names b.name).mpr hname)
    · have hused : a ∈ r.usedArrays := (hknown a).mpr (.inr ha)
      exact (definition_mem_iff hused hconst).mp (hdecl.constants a hused hconst)
  · intro hscan
    refine ⟨fun name => ?_, honce.mpr hscan.distinct, fun a ha hconst => ?_⟩
    · rw [hmentions, hdeclares]
      constructor
      · rintro ⟨a, hread | hasked, rfl⟩
        · exact hscan.known a hread
        · exact ⟨a, .inr hasked.1, rfl⟩
      · rintro ⟨b, hb, rfl⟩
        exact hscan.mentioned b hb
    · rw [definition_mem_iff ha hconst]
      rcases (hknown a).mp ha with hreached | hasked
      · exact ⟨a, hreached, hconst⟩
      · exact hscan.constants a hasked hconst

/-! ### Two arrays -/

/-- An array of four bytes. -/
def arrayX : KArray := .symbolic 0 "x" 4

/-- Another one. -/
def arrayY : KArray := .symbolic 1 "y" 4

/-- The first byte of the first array is 1. -/
def firstIsOne : Expr :=
  .Cmp .Eq (.Constant ⟨8, 1⟩) (.Read (.root arrayX) (.Constant ⟨32, 0⟩))

/-- The second byte of the first array is 2, after an update with a byte of the
other array. -/
def updatedIsTwo : Expr :=
  .Cmp .Eq (.Constant ⟨8, 2⟩)
    (.Read (.extend (.Constant ⟨32, 0⟩) (.Read (.root arrayY) (.Constant ⟨32, 0⟩)) (.root arrayX))
      (.Constant ⟨32, 1⟩))

/-- Two reads of the first array, the second one with an update. -/
def hiddenRequest : SMTLIBRequest where
  constantDisplayMode := .DECIMAL
  logicToUse := .QF_AUFBV
  useLetExpressions := false
  query := ⟨[firstIsOne], updatedIsTwo⟩
  arraysToCallGetValueOn := []

/-- The other array is mentioned and not declared. -/
theorem hiddenRequest_undeclared :
    hiddenRequest.usedArrays = {arrayX}
      ∧ "y" ∈ (hiddenRequest.printAssertions (.some Expr)).flatMap Command.symbols
      ∧ ¬hiddenRequest.DeclaresArrays (.some KArray) (.some Expr) := by
  have hused : hiddenRequest.usedArrays = {arrayX} := by decide
  have hread : hiddenRequest.Read arrayY := by
    refine ⟨hiddenRequest.queryAssert, List.mem_append_right _ (List.mem_singleton_self _),
      .root arrayY, .Constant ⟨32, 0⟩, by decide, rfl⟩
  have hmentioned : "y" ∈ (hiddenRequest.printAssertions (.some Expr)).flatMap Command.symbols :=
    (hiddenRequest.mem_symbols_printAssertions (.some Expr) (fun h => absurd h (by decide)) "y").mpr
      ⟨arrayY, hread, rfl⟩
  refine ⟨hused, hmentioned, fun hdecl => ?_⟩
  have hname := (hdecl.names "y").mp (by
    rw [List.flatMap_append]
    exact List.mem_append_left _ hmentioned)
  rw [mem_declared_iff, hused] at hname
  obtain ⟨a, ha, hname⟩ := hname
  rw [Finset.mem_singleton.mp ha] at hname
  exact absurd hname (by decide)

/-- The first byte is compared with 1 and with 2, in the printer with `let`. -/
def sharedRequest : SMTLIBRequest where
  constantDisplayMode := .DECIMAL
  logicToUse := .QF_AUFBV
  useLetExpressions := true
  query := ⟨[firstIsOne], .Cmp .Eq (.Constant ⟨8, 2⟩) (.Read (.root arrayX) (.Constant ⟨32, 0⟩))⟩
  arraysToCallGetValueOn := [arrayX]

/-- The read is abbreviated. -/
theorem declaresArrays_iff_shared :
    sharedRequest.DeclaresArrays (.some KArray) (.some Expr) ↔ sharedRequest.Scannable := by
  refine declaresArrays_iff (fun _ => ⟨fun a ha => ?_, fun a ha n => ?_⟩)
  · refine ⟨sharedRequest.queryAssert, List.mem_append_right _ (List.mem_singleton_self _), ?_⟩
    obtain ⟨ul, i, hread, rfl⟩ := ha
    exact ⟨ul, i, List.mem_cons_of_mem _ (List.mem_cons_of_mem _ hread), rfl⟩
  · have hname : a.name = "x" := by
      obtain ⟨e, he, ul, i, hread, rfl⟩ := ha
      have hall : ∀ e ∈ sharedRequest.asserted, ∀ x ∈ e.deep,
          x.readOf (fun ul => ul = .root arrayX) = true := by
        decide
      rw [of_decide_eq_true (hall e he _ hread)]
      rfl
    rw [hname]
    intro h
    have hchars := congrArg String.toList h
    rw [String.toList_append] at hchars
    exact absurd (List.cons.inj hchars).1 (by decide)

end SMTLIBRequest

end Xklee
