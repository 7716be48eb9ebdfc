/-
Which arrays the SMT-LIB printers declare.

Printing goes through the update list of every read. The scan before it looks
into the update list of a read only when it has not come to the array before:
`ComesTo` says which reads it comes to. An array that is read nowhere else than
in an update list that the scan passes over is printed and not declared.

Both scans find the same arrays. The one of the printer with `let` skips an
expression that it has seen before, but then every array that is read in it
outside of update lists is known already, and the scan of such an expression
adds nothing.
-/
import Xklee.Expr.Reads
import Xklee.Expr.SMTLIBPrinter

set_option autoImplicit false

namespace Xklee

open SMTLIB (Term LetTerm Command Script)

/-! ## The arrays of an expression -/

/-- The arrays that are read in an expression, update lists included. -/
def Expr.arrays (e : Expr) : Set KArray := {a | ∃ ul i, .Read ul i ∈ e.deep ∧ ul.array = a}

theorem Expr.mem_arrays_of_part {e k : Expr} (hk : k ∈ e.parts) {a : KArray} (ha : a ∈ k.arrays) :
    a ∈ e.arrays := by
  obtain ⟨ul, i, hread, rfl⟩ := ha
  exact ⟨ul, i, Expr.deep_trans (Expr.mem_deep_of_part hk) hread, rfl⟩

/-- An array is read by the expression itself or in one of its parts. -/
theorem Expr.mem_arrays_iff {e : Expr} {a : KArray} :
    a ∈ e.arrays ↔ (∃ ul i, e = .Read ul i ∧ ul.array = a) ∨ ∃ k ∈ e.parts, a ∈ k.arrays := by
  constructor
  · rintro ⟨ul, i, hread, rfl⟩
    rcases Expr.mem_deep_iff.mp hread with rfl | ⟨k, hk, hread⟩
    · exact .inl ⟨ul, i, rfl, rfl⟩
    · exact .inr ⟨k, hk, ul, i, hread, rfl⟩
  · rintro (⟨ul, i, rfl, rfl⟩ | ⟨k, hk, ha⟩)
    · exact ⟨ul, i, Expr.mem_deep_self _, rfl⟩
    · exact Expr.mem_arrays_of_part hk ha

/-- The arrays that are read in an expression outside of update lists. -/
def Expr.outerArrays : Expr → List KArray
  | .Constant _ => []
  | .NotOptimized e => e.outerArrays
  | .Read ul i => ul.array :: i.outerArrays
  | .Select c t f => c.outerArrays ++ (t.outerArrays ++ f.outerArrays)
  | .Concat l r => l.outerArrays ++ r.outerArrays
  | .Extract e _ _ => e.outerArrays
  | .Cast _ e _ => e.outerArrays
  | .Not e => e.outerArrays
  | .Binary _ l r => l.outerArrays ++ r.outerArrays
  | .Cmp _ l r => l.outerArrays ++ r.outerArrays

/-- Not a read. -/
def Expr.NoRead (e : Expr) : Prop := ∀ ul i, e ≠ .Read ul i

theorem Expr.parts_of_noRead {e : Expr} (h : e.NoRead) : e.parts = e.kids := by
  cases e with
  | Read ul i => exact absurd rfl (h ul i)
  | _ => rfl

/-- What a read reads from has a property. -/
def Expr.readOf (p : UpdateList → Bool) : Expr → Bool
  | .Read ul _ => p ul
  | _ => true

/-! ## The scan -/

namespace ExprSMTLIBPrinter

/-- The scan of several expressions. -/
def scanList (es : List Expr) (s : ArrayScan) : ArrayScan := es.foldl (fun s e => scan e s) s

@[simp] theorem scanList_nil (s : ArrayScan) : scanList [] s = s := rfl

@[simp] theorem scanList_cons (e : Expr) (es : List Expr) (s : ArrayScan) :
    scanList (e :: es) s = scanList es (scan e s) := rfl

theorem scanList_append (es es' : List Expr) (s : ArrayScan) :
    scanList (es ++ es') s = scanList es' (scanList es s) := List.foldl_append

theorem scan_of_noRead {e : Expr} (h : e.NoRead) (s : ArrayScan) : scan e s = scanList e.kids s := by
  cases e with
  | Read ul i => exact absurd rfl (h ul i)
  | _ => rfl

theorem scanUpdates_eq (ul : UpdateList) (s : ArrayScan) : scanUpdates ul s = scanList ul.exprs s := by
  induction ul using UpdateList.nodeInduction generalizing s with
  | root a => rfl
  | extend i v next ih => exact ih (scan v (scan i s))

variable {s : ArrayScan} {ul : UpdateList} {P : ArrayScan → Prop} {a : KArray}

/-- An array that is present: its update list is passed over. -/
theorem scan_Read_of_mem (i : Expr) (h : ul.array ∈ s.usedArrays) :
    scan (.Read ul i) s = scan i s := by
  change scan i (if ul.array ∈ s.usedArrays then s else scanUpdates ul (s.insert ul.array)) = _
  rw [if_pos h]

/-- A new array: its update list is scanned, then the index. -/
theorem scan_Read_of_notMem (i : Expr) (h : ul.array ∉ s.usedArrays) :
    scan (.Read ul i) s = scanList (ul.exprs ++ [i]) (s.insert ul.array) := by
  change scan i (if ul.array ∈ s.usedArrays then s else scanUpdates ul (s.insert ul.array)) = _
  rw [if_neg h, scanUpdates_eq, scanList_append]
  rfl

/-- What every insertion keeps, the scan of an expression keeps. -/
theorem scan_induction (hinsert : ∀ s a, P s → P (s.insert a)) (e : Expr) (hs : P s) :
    P (scan e s) := by
  induction e using Expr.partsInduction generalizing s with | _ e ih =>
  have hlist : ∀ (es : List Expr) (s : ArrayScan), (∀ k ∈ es, k ∈ e.parts) → P s →
      P (scanList es s) := by
    intro es
    induction es with
    | nil => exact fun s _ hs => hs
    | cons k es ihes =>
      intro s hes hs
      obtain ⟨hk, hes⟩ := List.forall_mem_cons.mp hes
      exact ihes (scan k s) hes (ih k hk hs)
  by_cases hread : e.NoRead
  · rw [scan_of_noRead hread]
    exact hlist e.kids s (fun k hk => Expr.kids_subset_parts e hk) hs
  · rw [Expr.NoRead] at hread
    push Not at hread
    obtain ⟨ul, i, rfl⟩ := hread
    by_cases hmem : ul.array ∈ s.usedArrays
    · rw [scan_Read_of_mem i hmem]
      exact ih i List.mem_cons_self hs
    · rw [scan_Read_of_notMem i hmem]
      refine hlist _ _ (fun k hk => ?_) (hinsert s ul.array hs)
      rcases List.mem_append.mp hk with hk | hk
      · exact List.mem_cons_of_mem i hk
      · rw [List.mem_singleton.mp hk]
        exact List.mem_cons_self

theorem scanList_induction (hinsert : ∀ s a, P s → P (s.insert a)) (es : List Expr) (hs : P s) :
    P (scanList es s) := by
  induction es generalizing s with
  | nil => exact hs
  | cons e es ih => exact ih (scan_induction hinsert e hs)

/-- Arrays that are present stay. -/
theorem mem_scan_of_mem (e : Expr) (h : a ∈ s.usedArrays) :
    a ∈ (scan e s).usedArrays :=
  scan_induction (P := fun s => a ∈ s.usedArrays) (fun _ _ => Finset.mem_insert_of_mem) e h

theorem mem_scanList_of_mem (es : List Expr) (h : a ∈ s.usedArrays) :
    a ∈ (scanList es s).usedArrays :=
  scanList_induction (P := fun s => a ∈ s.usedArrays) (fun _ _ => Finset.mem_insert_of_mem) es h

end ExprSMTLIBPrinter

/-- The flag says whether there is a constant array among the arrays. -/
def ArrayScan.Flagged (s : ArrayScan) : Prop :=
  s.haveConstantArray = true ↔ ∃ a ∈ s.usedArrays, a.isConstantArray = true

theorem ArrayScan.Flagged.insert {s : ArrayScan} (h : s.Flagged) (array : KArray) :
    (s.insert array).Flagged := by
  have hs : s.haveConstantArray = true ↔ ∃ a ∈ s.usedArrays, a.isConstantArray = true := h
  rw [Flagged, ArrayScan.insert, Bool.or_eq_true, hs, Finset.exists_mem_insert]
  exact or_comm

namespace ExprSMTLIBPrinter

variable {s : ArrayScan} {seen : Finset KArray} {r ul : UpdateList} {rest : List Expr} {i : Expr}

theorem scanList_flagged (es : List Expr) (h : s.Flagged) :
    (scanList es s).Flagged :=
  scanList_induction (fun _ a hs => hs.insert a) es h

/-! ## The reads that the scan comes to -/

/-- The reads to which a scan comes that has seen some arrays and has some
expressions before it. A read of an array that it has seen is passed over: its
update list is not looked into. -/
inductive ComesTo : Finset KArray → List Expr → UpdateList → Prop
  | here {seen : Finset KArray} (ul : UpdateList) (i : Expr) (rest : List Expr) :
      ComesTo seen (.Read ul i :: rest) ul
  | passOver {seen : Finset KArray} {ul r : UpdateList} {i : Expr} {rest : List Expr} :
      ul.array ∈ seen → ComesTo seen (i :: rest) r → ComesTo seen (.Read ul i :: rest) r
  | lookInto {seen : Finset KArray} {ul r : UpdateList} {i : Expr} {rest : List Expr} :
      ul.array ∉ seen → ComesTo (insert ul.array seen) (ul.exprs ++ i :: rest) r →
      ComesTo seen (.Read ul i :: rest) r
  | kids {seen : Finset KArray} {e : Expr} {r : UpdateList} {rest : List Expr} :
      e.NoRead → ComesTo seen (e.kids ++ rest) r → ComesTo seen (e :: rest) r

theorem not_comesTo_nil : ¬ComesTo seen [] r := by
  intro h
  cases h

theorem comesTo_of_noRead {e : Expr} (h : e.NoRead) :
    ComesTo seen (e :: rest) r ↔ ComesTo seen (e.kids ++ rest) r := by
  refine ⟨fun hcomes => ?_, .kids h⟩
  cases hcomes with
  | here => exact absurd rfl (h _ _)
  | @passOver _ ul _ i => exact absurd rfl (h ul i)
  | @lookInto _ ul _ i => exact absurd rfl (h ul i)
  | kids _ hkids => exact hkids

theorem comesTo_Read_of_mem (h : ul.array ∈ seen) :
    ComesTo seen (.Read ul i :: rest) r ↔ r = ul ∨ ComesTo seen (i :: rest) r := by
  constructor
  · intro hcomes
    cases hcomes with
    | here => exact .inl rfl
    | passOver _ hrest => exact .inr hrest
    | lookInto hnot => exact absurd h hnot
    | kids hread => exact absurd rfl (hread ul i)
  · rintro (rfl | hrest)
    · exact .here r i rest
    · exact .passOver h hrest

theorem comesTo_Read_of_notMem (h : ul.array ∉ seen) :
    ComesTo seen (.Read ul i :: rest) r
      ↔ r = ul ∨ ComesTo (insert ul.array seen) (ul.exprs ++ i :: rest) r := by
  constructor
  · intro hcomes
    cases hcomes with
    | here => exact .inl rfl
    | passOver hmem => exact absurd hmem h
    | lookInto _ hrest => exact .inr hrest
    | kids hread => exact absurd rfl (hread ul i)
  · rintro (rfl | hrest)
    · exact .here r i rest
    · exact .lookInto h hrest

/-- The arrays of a scan are those it has seen and those of the reads it comes to. -/
theorem mem_scanList_iff (es : List Expr) (s : ArrayScan) (a : KArray) :
    a ∈ (scanList es s).usedArrays
      ↔ a ∈ s.usedArrays ∨ ∃ r, ComesTo s.usedArrays es r ∧ r.array = a := by
  -- the parts of the first expression take its place
  induction hn : (es.flatMap Expr.deep).length using Nat.strong_induction_on
    generalizing es s with | _ n ih =>
  cases es with
  | nil => simp [not_comesTo_nil]
  | cons e rest =>
    rw [List.flatMap_cons, List.length_append, Expr.deep_eq, List.length_cons] at hn
    by_cases hread : e.NoRead
    · have hlt : ((e.kids ++ rest).flatMap Expr.deep).length < n := by
        rw [List.flatMap_append, List.length_append, ← Expr.parts_of_noRead hread]
        omega
      rw [scanList_cons, scan_of_noRead hread, ← scanList_append, ih _ hlt _ _ rfl]
      simp only [comesTo_of_noRead hread]
    · rw [Expr.NoRead] at hread
      push Not at hread
      obtain ⟨ul, i, rfl⟩ := hread
      have hparts : ((Expr.Read ul i).parts.flatMap Expr.deep).length
          = i.deep.length + (ul.exprs.flatMap Expr.deep).length := by
        change ((i :: ul.exprs).flatMap Expr.deep).length = _
        rw [List.flatMap_cons, List.length_append]
      rw [hparts] at hn
      by_cases hmem : ul.array ∈ s.usedArrays
      · have hlt : ((i :: rest).flatMap Expr.deep).length < n := by
          rw [List.flatMap_cons, List.length_append]
          omega
        rw [scanList_cons, scan_Read_of_mem i hmem, ← scanList_cons, ih _ hlt _ _ rfl]
        simp only [comesTo_Read_of_mem hmem, or_and_right, exists_or, exists_eq_left]
        constructor
        · rintro (h | h)
          · exact .inl h
          · exact .inr (.inr h)
        · rintro (h | rfl | h)
          · exact .inl h
          · exact .inl hmem
          · exact .inr h
      · have hlt : ((ul.exprs ++ i :: rest).flatMap Expr.deep).length < n := by
          rw [List.flatMap_append, List.flatMap_cons, List.length_append, List.length_append]
          omega
        have happend : ul.exprs ++ i :: rest = (ul.exprs ++ [i]) ++ rest := by
          rw [List.append_assoc, List.singleton_append]
        rw [scanList_cons, scan_Read_of_notMem i hmem, ← scanList_append, ← happend,
          ih _ hlt _ _ rfl]
        simp only [comesTo_Read_of_notMem hmem, or_and_right, exists_or, exists_eq_left]
        rw [ArrayScan.insert, Finset.mem_insert, or_assoc, or_left_comm, eq_comm]

/-! ## Scanning again -/

/-- Where all outer arrays are known, the scan adds nothing. -/
theorem scan_of_outerArrays_subset (e : Expr) (h : ∀ a ∈ e.outerArrays, a ∈ s.usedArrays) :
    scan e s = s := by
  induction e using Expr.kidsInduction with
  | Constant c => rfl
  | NotOptimized e ih | Extract e _ _ ih | Cast _ e _ ih | Not e ih => exact ih h
  | Read ul i ih =>
    obtain ⟨harray, hi⟩ := List.forall_mem_cons.mp h
    rw [scan_Read_of_mem i harray]
    exact ih hi
  | Select c t f ihc iht ihf =>
    obtain ⟨hc, htf⟩ := List.forall_mem_append.mp h
    obtain ⟨ht, hf⟩ := List.forall_mem_append.mp htf
    change scan f (scan t (scan c s)) = s
    rw [ihc hc, iht ht, ihf hf]
  | Concat l r ihl ihr | Binary _ l r ihl ihr | Cmp _ l r ihl ihr =>
    obtain ⟨hl, hr⟩ := List.forall_mem_append.mp h
    change scan r (scan l s) = s
    rw [ihl hl, ihr hr]

/-- After the scan all outer arrays are known. -/
theorem mem_scan_of_outerArrays (e : Expr) {a : KArray} (h : a ∈ e.outerArrays) :
    a ∈ (scan e s).usedArrays := by
  induction e using Expr.kidsInduction generalizing s with
  | Constant c => exact absurd h List.not_mem_nil
  | NotOptimized e ih | Extract e _ _ ih | Cast _ e _ ih | Not e ih => exact ih h
  | Read ul i ih =>
    rcases List.mem_cons.mp h with rfl | hi
    · by_cases hmem : ul.array ∈ s.usedArrays
      · rw [scan_Read_of_mem i hmem]
        exact mem_scan_of_mem i hmem
      · rw [scan_Read_of_notMem i hmem]
        exact mem_scanList_of_mem _ (Finset.mem_insert_self _ _)
    · exact ih hi
  | Select c t f ihc iht ihf =>
    change a ∈ (scan f (scan t (scan c s))).usedArrays
    rcases List.mem_append.mp h with hc | htf
    · exact mem_scan_of_mem f (mem_scan_of_mem t (ihc hc))
    · rcases List.mem_append.mp htf with ht | hf
      · exact mem_scan_of_mem f (iht ht)
      · exact ihf hf
  | Concat l r ihl ihr | Binary _ l r ihl ihr | Cmp _ l r ihl ihr =>
    change a ∈ (scan r (scan l s)).usedArrays
    rcases List.mem_append.mp h with hl | hr
    · exact mem_scan_of_mem r (ihl hl)
    · exact ihr hr

end ExprSMTLIBPrinter

namespace ExprSMTLIBLetPrinter

open ExprSMTLIBPrinter (scanList scanList_cons scanList_append scan_of_noRead scan_Read_of_mem
  scan_Read_of_notMem mem_scanList_of_mem mem_scan_of_outerArrays scan_of_outerArrays_subset)

/-- The scan of several expressions. -/
def letScanList (es : List Expr) (s : LetScan) : LetScan := es.foldl (fun s e => scan e s) s

theorem letScanList_append (es es' : List Expr) (s : LetScan) :
    letScanList (es ++ es') s = letScanList es' (letScanList es s) := List.foldl_append

theorem scanUpdates_eq (ul : UpdateList) (s : LetScan) :
    scanUpdates ul s = letScanList ul.exprs s := by
  induction ul using UpdateList.nodeInduction generalizing s with
  | root a => rfl
  | extend i v next ih => exact ih (scan v (scan i s))

/-- What is scanned below an expression that was not seen before: its kids, and
the update list of a new array before them. -/
def below (e : Expr) (s : LetScan) : List Expr × LetScan :=
  match e with
  | .Read ul i =>
      if ul.array ∈ s.arrays.usedArrays then ([i], s) else (ul.exprs ++ [i], s.insertArray ul.array)
  | e => (e.kids, s)

variable {es : List Expr} {s s' : LetScan} {e : Expr}

theorem scan_eq (he : e.isConstant = false) (s : LetScan) :
    scan e s = LetScan.once e (fun s => letScanList (below e s).1 (below e s).2) s := by
  cases e with
  | Constant c => exact absurd he (by simp [Expr.isConstant])
  | Read ul i =>
    change LetScan.once (.Read ul i) (fun s => scan i (if ul.array ∈ s.arrays.usedArrays then s
      else scanUpdates ul (s.insertArray ul.array))) s = _
    congr 1
    funext s
    by_cases hmem : ul.array ∈ s.arrays.usedArrays
    · simp only [below, if_pos hmem]
      rfl
    · simp only [below, if_neg hmem]
      rw [scanUpdates_eq, letScanList_append]
      rfl
  | _ => rfl

theorem below_subset_parts (e : Expr) (s : LetScan) : ∀ k ∈ (below e s).1, k ∈ e.parts := by
  intro k hk
  cases e with
  | Read ul i =>
    by_cases hmem : ul.array ∈ s.arrays.usedArrays
    · simp only [below, if_pos hmem, List.mem_singleton] at hk
      rw [hk]
      exact List.mem_cons_self
    · simp only [below, if_neg hmem] at hk
      rcases List.mem_append.mp hk with hk | hk
      · exact List.mem_cons_of_mem i hk
      · rw [List.mem_singleton.mp hk]
        exact List.mem_cons_self
  | _ => exact Expr.kids_subset_parts _ hk

/-- The other scan goes the same way. -/
theorem scan_arrays_below (e : Expr) (s : LetScan) :
    ExprSMTLIBPrinter.scan e s.arrays = scanList (below e s).1 (below e s).2.arrays := by
  cases e with
  | Read ul i =>
    by_cases hmem : ul.array ∈ s.arrays.usedArrays
    · simp only [below, if_pos hmem]
      rw [scan_Read_of_mem i hmem]
      rfl
    · simp only [below, if_neg hmem]
      exact scan_Read_of_notMem i hmem
  | Constant c => rfl
  | _ => rfl

/-- What the expressions that were seen before promise to one of at most that
many sub-expressions: if it is among them, its outer arrays are known. -/
def Ready (n : ℕ) (s : LetScan) : Prop :=
  ∀ x ∈ s.firstEO, x.deep.length ≤ n → ∀ a ∈ x.outerArrays, a ∈ s.arrays.usedArrays

/-- What the scan of some expressions does: it finds the arrays that the other
scan finds, and it sees sub-expressions, whose outer arrays are known then. -/
structure Scans (es : List Expr) (s s' : LetScan) : Prop where
  arrays : s'.arrays = scanList es s.arrays
  firstEO : ∀ x ∈ s'.firstEO, x ∈ s.firstEO ∨
    (∃ e ∈ es, x ∈ e.deep) ∧ ∀ a ∈ x.outerArrays, a ∈ s'.arrays.usedArrays
  twoOrMoreEO : ∀ x ∈ s'.twoOrMoreEO, x ∈ s.twoOrMoreEO ∨ ∃ e ∈ es, x ∈ e.deep

theorem Scans.usedArrays_mono (h : Scans es s s') {a : KArray} (ha : a ∈ s.arrays.usedArrays) :
    a ∈ s'.arrays.usedArrays := by
  rw [h.arrays]
  exact mem_scanList_of_mem es ha

theorem Scans.ready (h : Scans es s s') {n : ℕ} (hs : Ready n s) : Ready n s' := by
  intro x hx hn a ha
  rcases h.firstEO x hx with hx | ⟨-, hknown⟩
  · exact h.usedArrays_mono (hs x hx hn a ha)
  · exact hknown a ha

/-- The scans of single expressions make up the scan of several. -/
theorem scans_list (es : List Expr) (n : ℕ) (hn : ∀ e ∈ es, e.deep.length ≤ n)
    (ih : ∀ e ∈ es, ∀ s, Ready e.deep.length s → Scans [e] s (scan e s)) (hs : Ready n s) :
    Scans es s (letScanList es s) := by
  induction es generalizing s with
  | nil => exact ⟨rfl, fun x hx => .inl hx, fun x hx => .inl hx⟩
  | cons e es ihes =>
    obtain ⟨hne, hnes⟩ := List.forall_mem_cons.mp hn
    obtain ⟨ihe, ihrest⟩ := List.forall_mem_cons.mp ih
    have hready : Ready e.deep.length s := fun x hx hle => hs x hx (hle.trans hne)
    have hfirst := ihe s hready
    have hrest := ihes hnes ihrest (hfirst.ready hs)
    have hmem : ∀ x : Expr, (∃ e' ∈ [e], x ∈ e'.deep) → ∃ e' ∈ e :: es, x ∈ e'.deep := by
      rintro x ⟨e', he', hx⟩
      exact ⟨e', List.mem_cons.mpr (.inl (List.mem_singleton.mp he')), hx⟩
    have hmem' : ∀ x : Expr, (∃ e' ∈ es, x ∈ e'.deep) → ∃ e' ∈ e :: es, x ∈ e'.deep := by
      rintro x ⟨e', he', hx⟩
      exact ⟨e', List.mem_cons_of_mem e he', hx⟩
    refine ⟨?_, fun x hx => ?_, fun x hx => ?_⟩
    · rw [scanList_cons]
      have harrays : (scan e s).arrays = ExprSMTLIBPrinter.scan e s.arrays := hfirst.arrays
      rw [← harrays]
      exact hrest.arrays
    · rcases hrest.firstEO x hx with hx | ⟨hx, hknown⟩
      · rcases hfirst.firstEO x hx with hx | ⟨hx, hknown⟩
        · exact .inl hx
        · exact .inr ⟨hmem x hx, fun a ha => hrest.usedArrays_mono (hknown a ha)⟩
      · exact .inr ⟨hmem' x hx, hknown⟩
    · rcases hrest.twoOrMoreEO x hx with hx | hx
      · rcases hfirst.twoOrMoreEO x hx with hx | hx
        · exact .inl hx
        · exact .inr (hmem x hx)
      · exact .inr (hmem' x hx)

theorem length_deep_lt_of_part {k : Expr} (hk : k ∈ e.parts) : k.deep.length < e.deep.length := by
  rw [Expr.deep_eq e, List.length_cons, List.length_flatMap]
  have hle : k.deep.length ≤ (e.parts.map fun x => x.deep.length).sum :=
    List.single_le_sum (fun _ _ => Nat.zero_le _) _ (List.mem_map_of_mem hk)
  omega

/-- One expression. -/
theorem scans_scan (e : Expr) (s : LetScan) (hs : Ready e.deep.length s) :
    Scans [e] s (scan e s) := by
  induction e using Expr.partsInduction generalizing s with | _ e ih =>
  by_cases hconst : e.isConstant = true
  · obtain ⟨c, rfl⟩ := Expr.eq_Constant_of_isConstant hconst
    exact ⟨rfl, fun x hx => .inl hx, fun x hx => .inl hx⟩
  rw [Bool.not_eq_true] at hconst
  rw [scan_eq hconst, LetScan.once]
  by_cases hseen : e ∈ s.firstEO
  · rw [if_pos hseen]
    refine ⟨?_, fun x hx => .inl hx, fun x hx => ?_⟩
    · exact (scan_of_outerArrays_subset e (hs e hseen le_rfl)).symm
    · rcases Finset.mem_insert.mp hx with rfl | hx
      · exact .inr ⟨x, List.mem_singleton_self x, Expr.mem_deep_self x⟩
      · exact .inl hx
  · rw [if_neg hseen]
    -- the expression itself is seen now, but it is larger than its parts
    obtain ⟨s₁, hs₁⟩ : ∃ s₁ : LetScan, s₁ = { s with firstEO := insert e s.firstEO } := ⟨_, rfl⟩
    rw [← hs₁]
    have hbelow : (below e s₁).2.firstEO = insert e s.firstEO
        ∧ (below e s₁).2.twoOrMoreEO = s.twoOrMoreEO
        ∧ ∀ a ∈ s.arrays.usedArrays, a ∈ (below e s₁).2.arrays.usedArrays := by
      subst hs₁
      cases e with
      | Read ul i =>
        rw [below]
        by_cases hmem : ul.array ∈ s.arrays.usedArrays
        · rw [if_pos hmem]
          exact ⟨rfl, rfl, fun _ ha => ha⟩
        · rw [if_neg hmem]
          exact ⟨rfl, rfl, fun _ ha => Finset.mem_insert_of_mem ha⟩
      | _ => exact ⟨rfl, rfl, fun _ ha => ha⟩
    obtain ⟨hfirst, htwo, harrays⟩ := hbelow
    have hready : Ready (e.deep.length - 1) (below e s₁).2 := by
      intro x hx hle a ha
      rw [hfirst] at hx
      rcases Finset.mem_insert.mp hx with rfl | hx
      · have hpos : 0 < x.deep.length := by
          rw [Expr.deep_eq]
          exact Nat.succ_pos _
        omega
      · exact harrays a (hs x hx (by omega) a ha)
    have hparts := below_subset_parts e s₁
    have hscans := scans_list (below e s₁).1 (e.deep.length - 1)
      (fun k hk => by have := length_deep_lt_of_part (hparts k hk); omega)
      (fun k hk s hk' => ih k (hparts k hk) s hk') hready
    have hmem : ∀ x : Expr, (∃ k ∈ (below e s₁).1, x ∈ k.deep) → ∃ e' ∈ [e], x ∈ e'.deep := by
      rintro x ⟨k, hk, hx⟩
      exact ⟨e, List.mem_singleton_self e,
        Expr.deep_trans (Expr.mem_deep_of_part (hparts k hk)) hx⟩
    have hsame : s₁.arrays = s.arrays := by rw [hs₁]
    have heq : (letScanList (below e s₁).1 (below e s₁).2).arrays
        = ExprSMTLIBPrinter.scan e s.arrays := by
      rw [hscans.arrays, ← hsame]
      exact (scan_arrays_below e s₁).symm
    refine ⟨heq, fun x hx => ?_, fun x hx => ?_⟩
    · rcases hscans.firstEO x hx with hx | ⟨hx, hknown⟩
      · rw [hfirst] at hx
        rcases Finset.mem_insert.mp hx with rfl | hx
        · refine .inr ⟨⟨x, List.mem_singleton_self x, Expr.mem_deep_self x⟩, fun a ha => ?_⟩
          rw [heq]
          exact mem_scan_of_outerArrays x ha
        · exact .inl hx
      · exact .inr ⟨hmem x hx, hknown⟩
    · rcases hscans.twoOrMoreEO x hx with hx | hx
      · rw [htwo] at hx
        exact .inl hx
      · exact .inr (hmem x hx)

/-- The whole scan of the printer with `let`. -/
theorem scans_empty (es : List Expr) : Scans es .empty (letScanList es .empty) := by
  refine scans_list es (es.map fun e => e.deep.length).sum (fun e he => ?_)
    (fun e _ s hs => scans_scan e s hs) ?_
  · exact List.single_le_sum (fun _ _ => Nat.zero_le _) _ (List.mem_map_of_mem he)
  · intro x hx
    exact absurd hx (Finset.notMem_empty x)

end ExprSMTLIBLetPrinter

/-! ## The arrays of a request -/

namespace SMTLIBRequest

open ExprSMTLIBPrinter (ComesTo scanList mem_scanList_iff scanList_flagged)

variable (r : SMTLIBRequest)

/-- Both printers find the same arrays. -/
theorem arrayScan_eq : r.arrayScan = scanList r.scanned .empty := by
  rw [arrayScan]
  split
  · exact (ExprSMTLIBLetPrinter.scans_empty r.scanned).arrays
  · rfl

/-- The scan comes to a read of the array. -/
def Reached (a : KArray) : Prop := ∃ ul, ComesTo ∅ r.scanned ul ∧ ul.array = a

theorem mem_arrayScan_iff (a : KArray) : a ∈ r.arrayScan.usedArrays ↔ r.Reached a := by
  rw [arrayScan_eq, mem_scanList_iff]
  exact or_iff_right (Finset.notMem_empty a)

theorem mem_usedArrays_iff (a : KArray) :
    a ∈ r.usedArrays ↔ r.Reached a ∨ a ∈ r.arraysToCallGetValueOn := by
  rw [usedArrays, Finset.mem_union, mem_arrayScan_iff, List.mem_toFinset]

theorem haveConstantArray_iff :
    r.arrayScan.haveConstantArray = true ↔ ∃ a, r.Reached a ∧ a.isConstantArray = true := by
  have hempty : ArrayScan.Flagged .empty := by simp [ArrayScan.Flagged, ArrayScan.empty]
  have hflagged := scanList_flagged r.scanned hempty
  rw [ArrayScan.Flagged, ← arrayScan_eq] at hflagged
  rw [hflagged]
  simp only [mem_arrayScan_iff]

/-- Only sub-expressions of what is scanned are abbreviated. -/
theorem mem_deep_of_mem_twoOrMoreEO {x : Expr} (h : x ∈ r.letScan.twoOrMoreEO) :
    ∃ e ∈ r.scanned, x ∈ e.deep := by
  rcases (ExprSMTLIBLetPrinter.scans_empty r.scanned).twoOrMoreEO x h with hx | hx
  · exact absurd hx (Finset.notMem_empty x)
  · exact hx

end SMTLIBRequest

end Xklee
