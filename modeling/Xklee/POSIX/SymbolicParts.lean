/-
When the parts of a file are made symbolic, and nothing else.

Each of the methods leaves a set of bytes free, and makes the others equal to those of the file.
The first two know one part only: the free bytes are those of part 0, and for `fill_concrete` the
byte before it as well. The third one goes over all parts, but looks at the bound of part 0 alone.
-/
import Mathlib.Tactic.Common
import Xklee.Data.Partial
import Xklee.POSIX.MakeFileSymbolic

set_option autoImplicit false

namespace Xklee.MakeSymbolic

variable {data : List (BitVec 8)} {p : XqxMakeSym} {part : XqxSymBuf} {size : BitVec 32}
  {path name : List Char}

/-! ## Free bytes -/

variable {covered : ℕ → Prop} {c : FileBytes} {j k : ℕ}

/-- Contents with a set of free bytes are right for a set of covered bytes when the sets are the
same. -/
theorem symbolised_iff {free : ℕ → Prop} (h : Symbolised data free c) :
    Symbolised data covered c ↔ ∀ j < data.length, covered j ↔ free j := by
  constructor
  · rintro ⟨-, hcovered⟩ j hj
    have hget : data[j]? = some data[j] := List.getElem?_eq_getElem hj
    obtain ⟨hcov, hnot⟩ := hcovered j _ hget
    obtain ⟨hfree, hfixed⟩ := h.2 j _ hget
    constructor
    · intro hc
      obtain ⟨⟨name, i, hsym⟩, hnone⟩ := hcov hc
      by_contra hf
      rcases hfixed hf with hconc | hmem
      · rw [hsym] at hconc
        cases hconc
      · exact hnone _ hmem
    · intro hf
      obtain ⟨⟨name, i, hsym⟩, hnone⟩ := hfree hf
      by_contra hc
      rcases hnot hc with hconc | hmem
      · rw [hsym] at hconc
        cases hconc
      · exact hnone _ hmem
  · intro hiff
    refine ⟨h.1, fun j b hget => ?_⟩
    have hj : j < data.length := (List.getElem?_eq_some_iff.mp hget).1
    rw [hiff j hj]
    exact h.2 j b hget

theorem right_of_not_rejected {r : Filled} (h : r.rejected = false) :
    Right data p r ↔ Symbolised data (Covered p) r.bytes := by
  unfold Right
  rw [h]
  rfl

/-- What `klee_make_symbolic` makes of a file. -/
def allSymbolic (data : List (BitVec 8)) (path : List Char) : List MemByte :=
  (data.map MemByte.concrete).mapIdx fun i _ => .symbolic path i

@[simp] theorem length_allSymbolic (data : List (BitVec 8)) (path : List Char) :
    (allSymbolic data path).length = data.length := by
  unfold allSymbolic
  rw [List.length_mapIdx, List.length_map]

theorem getElem?_allSymbolic (hj : j < data.length) :
    (allSymbolic data path)[j]? = some (.symbolic path j) := by
  unfold allSymbolic
  rw [List.getElem?_mapIdx, List.getElem?_eq_getElem (by rwa [List.length_map])]
  rfl

theorem klee_make_symbolic_eq (hsize : size.toNat = data.length) :
    klee_make_symbolic (data.map .concrete) size.toNat path = some (allSymbolic data path) := by
  unfold klee_make_symbolic
  rw [if_pos (by rw [hsize, List.length_map])]
  rfl

/-- A file that is rejected after it was made symbolic is not as it was, unless it is empty. -/
theorem right_rejected_iff (p : XqxMakeSym) (path : List Char) :
    Right data p ⟨true, ⟨allSymbolic data path, []⟩⟩ ↔ data.length = 0 := by
  unfold Right
  rw [if_pos rfl, List.length_eq_zero_iff]
  constructor
  · intro h
    have hcontents : allSymbolic data path = data.map .concrete := congrArg FileBytes.contents h
    cases data with
    | nil => rfl
    | cons b rest =>
      have hget := congrArg (·[0]?) hcontents
      rw [getElem?_allSymbolic (Nat.zero_lt_succ _)] at hget
      cases hget
  · rintro rfl
    rfl

theorem outOfBound_iff : outOfBound part size = true
    ↔ size.toNat < (part.offset.toNat + part.length.toNat) % 2 ^ 32 := by
  unfold outOfBound
  rw [BitVec.ult_iff_toNat_lt, BitVec.toNat_add]

theorem getElem?_data {b : BitVec 8} (h : data[j]? = some b) :
    (data.map MemByte.concrete)[j]? = some (.concrete b) := by
  rw [List.getElem?_map, h]
  rfl

/-! ## `fill_concrete` -/

/-- The copies stay inside the buffers when the part starts after the first byte and ends at the
end of the file or before. -/
theorem fill_concrete_spec (path : List Char) (hsize : size.toNat = data.length) (hint : data.length < 2 ^ 31)
    (hbound : ¬outOfBound part size) :
    (1 ≤ part.offset.toNat ∧ part.offset.toNat + part.length.toNat ≤ size.toNat →
        ∃ c, fill_concrete path size (data.map .concrete) part ⟨data.map .concrete, []⟩
            = some ⟨false, c⟩
          ∧ Symbolised data (fun j => part.offset.toNat - 1 ≤ j
              ∧ j < part.offset.toNat + part.length.toNat) c)
      ∧ (¬(1 ≤ part.offset.toNat ∧ part.offset.toNat + part.length.toNat ≤ size.toNat) →
        fill_concrete path size (data.map .concrete) part ⟨data.map .concrete, []⟩ = none) := by
  unfold fill_concrete
  rw [klee_make_symbolic_eq hsize, Option.bind_some, if_neg hbound]
  have hoff := part.offset.isLt
  have hlen := part.length.isLt
  have hfile := size.isLt
  have hfirst : (part.offset - 1).toNat = (part.offset.toNat + (2 ^ 32 - 1)) % 2 ^ 32 := by
    rw [BitVec.toNat_sub, Nat.add_comm]
    rfl
  have hrest : (size - part.offset - part.length).toNat
      = (2 ^ 32 - part.length.toNat + (2 ^ 32 - part.offset.toNat + size.toNat) % 2 ^ 32)
        % 2 ^ 32 := by
    rw [BitVec.toNat_sub, BitVec.toNat_sub]
  constructor
  · rintro ⟨hone, hend⟩
    obtain ⟨c₁, hc₁⟩ := Buffer.exists_copy (allSymbolic data path) 0 (data.map .concrete) 0
      (part.offset - 1).toNat (by
        rw [length_allSymbolic, List.length_map]
        omega)
    have hlen₁ := Buffer.length_copy hc₁
    rw [length_allSymbolic] at hlen₁
    obtain ⟨c₂, hc₂⟩ := Buffer.exists_copy c₁ (part.offset.toNat + part.length.toNat)
      (data.map .concrete) (part.offset.toNat + part.length.toNat)
      (size - part.offset - part.length).toNat (by
        rw [hlen₁, List.length_map]
        omega)
    refine ⟨⟨c₂, []⟩, ?_, (Buffer.length_copy hc₂).trans hlen₁, fun j b hget => ?_⟩
    · rw [hc₁, Option.bind_some]
      dsimp only
      rw [hc₂]
      rfl
    · have hj : j < data.length := (List.getElem?_eq_some_iff.mp hget).1
      have hnew : c₂[j]? = if part.offset.toNat + part.length.toNat ≤ j
          ∨ j < part.offset.toNat - 1 then some (.concrete b) else some (.symbolic path j) := by
        rw [Buffer.getElem?_copy hc₂, Buffer.getElem?_copy hc₁, getElem?_allSymbolic hj]
        by_cases h₂ : part.offset.toNat + part.length.toNat ≤ j
        · rw [if_pos (by omega), if_pos (.inl h₂), Nat.add_sub_cancel' h₂, getElem?_data hget]
        · rw [if_neg (by omega)]
          by_cases h₁ : j < part.offset.toNat - 1
          · rw [if_pos (by omega), if_pos (.inr h₁), Nat.zero_add, Nat.sub_zero, getElem?_data hget]
          · rw [if_neg (by omega), if_neg (by omega)]
      constructor
      · intro hfree
        rw [if_neg (by omega)] at hnew
        exact ⟨⟨path, j, hnew⟩, fun b' hb' => nomatch hb'⟩
      · intro hfixed
        rw [if_pos (by omega)] at hnew
        exact .inl hnew
  · intro hnot
    by_cases hone : 1 ≤ part.offset.toNat
    · cases hc₁ : Buffer.copy (allSymbolic data path) 0 (data.map .concrete) 0
          (part.offset - 1).toNat with
      | none => rfl
      | some c₁ =>
        have hlen₁ := Buffer.length_copy hc₁
        rw [length_allSymbolic] at hlen₁
        have hgt : size.toNat < part.offset.toNat + part.length.toNat :=
          Nat.lt_of_not_le fun hle => hnot ⟨hone, hle⟩
        have hout : ¬(part.offset.toNat + part.length.toNat
              + (size - part.offset - part.length).toNat ≤ (data.map MemByte.concrete).length
            ∧ part.offset.toNat + part.length.toNat
              + (size - part.offset - part.length).toNat ≤ c₁.length) := by
          rintro ⟨hle, -⟩
          rw [List.length_map, ← hsize] at hle
          exact Nat.lt_irrefl _ (Nat.lt_of_lt_of_le hgt (Nat.le_trans (Nat.le_add_right _ _) hle))
        rw [Option.bind_some]
        dsimp only
        rw [Buffer.copy_eq_none hout]
        rfl
    · -- one byte less than none is a copy of almost 4 GiB
      have hout : ¬(0 + (part.offset - 1).toNat ≤ (data.map MemByte.concrete).length
          ∧ 0 + (part.offset - 1).toNat ≤ (allSymbolic data path).length) := by
        rw [length_allSymbolic, List.length_map]
        omega
      rw [Buffer.copy_eq_none hout]
      rfl

/-! ## `fill_assume` -/

/-- A loop of assumptions over bytes that are there. -/
theorem assume_spec (orig : List MemByte) (k : ℕ) {m : ℕ} (hlen : c.contents.length = orig.length) :
    (m + k ≤ orig.length ∨ k = 0 → ∃ assumed,
        (List.range' m k).foldlM (assumeByte orig) c = some { c with assumed := assumed }
        ∧ ∀ j b, (j, b) ∈ assumed ↔ (j, b) ∈ c.assumed ∨ (m ≤ j ∧ j < m + k ∧ orig[j]? = some b))
      ∧ (¬(m + k ≤ orig.length ∨ k = 0) →
        (List.range' m k).foldlM (assumeByte orig) c = none) := by
  induction k generalizing m c with
  | zero =>
    refine ⟨fun _ => ⟨c.assumed, rfl, fun j b => ?_⟩, fun h => absurd (.inr rfl) h⟩
    constructor
    · exact .inl
    · rintro (h | ⟨h₁, h₂, -⟩)
      · exact h
      · omega
  | succ k ih =>
    rw [List.range'_succ, List.foldlM_cons]
    show (_ → ∃ assumed, (assumeByte orig c m).bind _ = _ ∧ _)
      ∧ (_ → (assumeByte orig c m).bind _ = none)
    by_cases hm : m < orig.length
    · have hstep : assumeByte orig c m
          = some { c with assumed := c.assumed ++ [(m, orig[m])] } := by
        unfold assumeByte
        rw [List.getElem?_eq_getElem hm, List.getElem?_eq_getElem (by omega)]
      rw [hstep, Option.bind_some]
      have hrest := ih (m := m + 1) (c := { c with assumed := c.assumed ++ [(m, orig[m])] }) hlen
      have hiff : (m + (k + 1) ≤ orig.length ∨ k + 1 = 0) ↔ (m + 1 + k ≤ orig.length ∨ k = 0) := by
        omega
      rw [hiff]
      refine ⟨fun h => ?_, hrest.2⟩
      obtain ⟨assumed, hfold, hmem⟩ := hrest.1 h
      refine ⟨assumed, hfold, fun j b => ?_⟩
      rw [hmem, List.mem_append, List.mem_singleton]
      constructor
      · rintro ((h | h) | ⟨h₁, h₂, h₃⟩)
        · exact .inl h
        · obtain ⟨rfl, rfl⟩ := Prod.mk.inj h
          exact .inr ⟨Nat.le_refl _, by omega, List.getElem?_eq_getElem hm⟩
        · exact .inr ⟨by omega, by omega, h₃⟩
      · rintro (h | ⟨h₁, h₂, h₃⟩)
        · exact .inl (.inl h)
        · by_cases heq : j = m
          · subst heq
            rw [List.getElem?_eq_getElem hm] at h₃
            rw [Option.some.inj h₃]
            exact .inl (.inr rfl)
          · exact .inr ⟨by omega, by omega, h₃⟩
    · have hstep : assumeByte orig c m = none := by
        unfold assumeByte
        rw [List.getElem?_eq_none (by omega), List.getElem?_eq_none (by omega)]
      rw [hstep]
      exact ⟨fun h => by omega, fun _ => rfl⟩

/-- The bytes that are left free start with the part and end with it, or where the sum wraps
around. -/
theorem fill_assume_spec (path : List Char) (hsize : size.toNat = data.length) (hbound : ¬outOfBound part size) :
    (part.offset.toNat ≤ size.toNat →
        ∃ c, fill_assume path size (data.map .concrete) part ⟨data.map .concrete, []⟩
            = some ⟨false, c⟩
          ∧ Symbolised data (fun j => part.offset.toNat ≤ j
              ∧ j < (part.offset.toNat + part.length.toNat) % 2 ^ 32) c)
      ∧ (¬part.offset.toNat ≤ size.toNat →
        fill_assume path size (data.map .concrete) part ⟨data.map .concrete, []⟩ = none) := by
  unfold fill_assume
  rw [klee_make_symbolic_eq hsize, Option.bind_some]
  dsimp only
  rw [if_neg hbound]
  have hend : (part.offset + part.length).toNat
      = (part.offset.toNat + part.length.toNat) % 2 ^ 32 := BitVec.toNat_add ..
  have hlow : (part.offset.toNat + part.length.toNat) % 2 ^ 32 ≤ size.toNat :=
    Nat.le_of_not_lt fun h => hbound (outOfBound_iff.mpr h)
  have hlen : (allSymbolic data path).length = (data.map MemByte.concrete).length := by
    rw [length_allSymbolic, List.length_map]
  have hfirst := assume_spec (data.map .concrete) part.offset.toNat (m := 0)
    (c := ⟨allSymbolic data path, []⟩) hlen
  rw [List.length_map, Nat.zero_add, ← hsize] at hfirst
  rw [List.range_eq_range', hend]
  constructor
  · intro hoff
    obtain ⟨a₁, ha₁, hmem₁⟩ := hfirst.1 (.inl hoff)
    have hsecond := assume_spec (data.map .concrete)
      (size.toNat - (part.offset.toNat + part.length.toNat) % 2 ^ 32)
      (m := (part.offset.toNat + part.length.toNat) % 2 ^ 32)
      (c := ⟨allSymbolic data path, a₁⟩) hlen
    rw [List.length_map, ← hsize] at hsecond
    obtain ⟨a₂, ha₂, hmem₂⟩ := hsecond.1 (by omega)
    refine ⟨⟨allSymbolic data path, a₂⟩, ?_, length_allSymbolic .., fun j b hget => ?_⟩
    · rw [ha₁, Option.bind_some]
      dsimp only
      rw [ha₂]
      rfl
    · have hj : j < data.length := (List.getElem?_eq_some_iff.mp hget).1
      have hmem : ∀ b', (j, b') ∈ a₂ → ¬(part.offset.toNat ≤ j
          ∧ j < (part.offset.toNat + part.length.toNat) % 2 ^ 32) := by
        intro b' hb'
        rcases (hmem₂ j b').mp hb' with hb' | ⟨hb', -⟩
        · rcases (hmem₁ j b').mp hb' with hb' | ⟨-, hb', -⟩
          · cases hb'
          · omega
        · omega
      constructor
      · exact fun hfree => ⟨⟨path, j, getElem?_allSymbolic hj⟩, fun b' hb' => hmem b' hb' hfree⟩
      · intro hfixed
        refine .inr ((hmem₂ j _).mpr ?_)
        by_cases hlt : j < part.offset.toNat
        · exact .inl ((hmem₁ j _).mpr (.inr ⟨Nat.zero_le _, hlt, getElem?_data hget⟩))
        · exact .inr ⟨by omega, by omega, getElem?_data hget⟩
  · intro hoff
    rw [hfirst.2 (by omega)]
    rfl

/-! ## `fill_sym` -/

/-- The parts before a number cover the byte. -/
def CoveredUpto (p : XqxMakeSym) (n j : ℕ) : Prop :=
  ∃ k < n, ∃ part, p.part k = some part
    ∧ part.offset.toNat ≤ j ∧ j < part.offset.toNat + part.length.toNat

/-- A part is inside the file, and its name fits in the buffer. -/
def PartFits (size : ℕ) (name : List Char) (part : XqxSymBuf) : Prop :=
  part.offset.toNat + part.length.toNat ≤ size
    ∧ (name ++ (toString part.offset.toInt).toList).length < 256

theorem part_eq_some (hk : k < SYM_BUF_SIZE) : ∃ part, p.part k = some part := by
  unfold XqxMakeSym.part
  rw [dif_pos hk]
  exact ⟨_, rfl⟩

/-- One part. -/
theorem fillPart_spec (name : List Char) (hk : p.part k = some part) {contents : List MemByte}
    (h : Symbolised data covered ⟨contents, []⟩) :
    (PartFits data.length name part → ∃ contents',
        fillPart name (data.map .concrete) p contents k = some contents'
        ∧ Symbolised data (fun j => covered j
            ∨ part.offset.toNat ≤ j ∧ j < part.offset.toNat + part.length.toNat) ⟨contents', []⟩)
      ∧ (¬PartFits data.length name part →
        fillPart name (data.map .concrete) p contents k = none) := by
  unfold fillPart
  rw [hk, Option.bind_some]
  dsimp only
  have hlen : contents.length = data.length := h.1
  by_cases hend : part.offset.toNat + part.length.toNat ≤ data.length
  · obtain ⟨symbuf, hcopy⟩ := Buffer.exists_copy
      (List.replicate part.length.toNat (MemByte.concrete 0)) 0 (data.map .concrete)
      part.offset.toNat part.length.toNat (by
        rw [List.length_map, List.length_replicate]
        omega)
    have hsymbuf := Buffer.length_copy hcopy
    rw [List.length_replicate] at hsymbuf
    rw [hcopy, Option.bind_some]
    by_cases hname : (name ++ (toString part.offset.toInt).toList).length < 256
    · refine ⟨fun _ => ?_, fun hnot => absurd ⟨hend, hname⟩ hnot⟩
      have hsym : symName name part.offset
          = some (name ++ (toString part.offset.toInt).toList) := if_pos hname
      have hmake : klee_make_symbolic symbuf part.length.toNat
            (name ++ (toString part.offset.toInt).toList)
          = some (symbuf.mapIdx fun i _ =>
            .symbolic (name ++ (toString part.offset.toInt).toList) i) := if_pos hsymbuf.symm
      rw [hsym, Option.bind_some, hmake, Option.bind_some]
      obtain ⟨contents', hcopy'⟩ := Buffer.exists_copy contents part.offset.toNat
        (symbuf.mapIdx fun i _ =>
          MemByte.symbolic (name ++ (toString part.offset.toInt).toList) i) 0
        part.length.toNat (by
          rw [List.length_mapIdx]
          omega)
      refine ⟨contents', hcopy', (Buffer.length_copy hcopy').trans hlen, fun j b hget => ?_⟩
      have hnew := Buffer.getElem?_copy hcopy' j
      obtain ⟨hcov, hnot⟩ := h.2 j b hget
      by_cases hj : part.offset.toNat ≤ j ∧ j < part.offset.toNat + part.length.toNat
      · have hsym' : symbuf[0 + (j - part.offset.toNat)]? = some _ :=
          List.getElem?_eq_getElem (by omega)
        rw [if_pos hj, List.getElem?_mapIdx, hsym'] at hnew
        exact ⟨fun _ => ⟨⟨_, _, hnew⟩, fun b' hb' => nomatch hb'⟩, fun hn => absurd (.inr hj) hn⟩
      · rw [if_neg hj] at hnew
        refine ⟨fun hc => ?_, fun hn => ?_⟩
        · rw [hnew]
          exact hcov (hc.resolve_right hj)
        · rw [hnew]
          exact hnot fun hc => hn (.inl hc)
    · refine ⟨fun hfits => absurd hfits.2 hname, fun _ => ?_⟩
      have hsym : symName name part.offset = none := if_neg hname
      rw [hsym]
      rfl
  · refine ⟨fun hfits => absurd hfits.1 hend, fun _ => ?_⟩
    rw [Buffer.copy_eq_none (by rw [List.length_map]; omega)]
    rfl

/-- The loop over the parts. -/
theorem fillParts_spec (p : XqxMakeSym) (name : List Char)
    (hdata : Symbolised data (fun _ => False) ⟨data.map .concrete, []⟩) (n : ℕ)
    (hn : n ≤ SYM_BUF_SIZE) :
    ((∀ k < n, ∀ part, p.part k = some part → PartFits data.length name part) → ∃ contents,
        (List.range n).foldlM (fillPart name (data.map .concrete) p) (data.map .concrete)
          = some contents
        ∧ Symbolised data (CoveredUpto p n) ⟨contents, []⟩)
      ∧ ((¬∀ k < n, ∀ part, p.part k = some part → PartFits data.length name part) →
        (List.range n).foldlM (fillPart name (data.map .concrete) p) (data.map .concrete)
          = none) := by
  induction n with
  | zero =>
    refine ⟨fun _ => ⟨_, rfl, (symbolised_iff hdata).mpr fun j _ => ?_⟩,
      fun h => absurd (fun k hk => absurd hk (Nat.not_lt_zero k)) h⟩
    exact iff_of_false (fun ⟨k, hk, _⟩ => absurd hk (Nat.not_lt_zero k)) id
  | succ n ih =>
    rw [Partial.foldlM_range_succ]
    have hrest := ih (by omega)
    obtain ⟨part, hpart⟩ := part_eq_some (p := p) (k := n) (by omega)
    by_cases hall : ∀ k < n, ∀ part, p.part k = some part → PartFits data.length name part
    · obtain ⟨contents, hfold, hsym⟩ := hrest.1 hall
      have hone := fillPart_spec name hpart hsym
      rw [hfold, Option.bind_some]
      by_cases hfits : PartFits data.length name part
      · obtain ⟨contents', hfill, hsym'⟩ := hone.1 hfits
        refine ⟨fun _ => ⟨contents', hfill, (symbolised_iff hsym').mpr fun j _ => ?_⟩,
          fun hnot => absurd (fun k hk part' hpart' => ?_) hnot⟩
        · constructor
          · rintro ⟨k, hk, part', hpart', hj⟩
            by_cases heq : k = n
            · subst heq
              rw [hpart] at hpart'
              exact .inr (Option.some.inj hpart' ▸ hj)
            · exact .inl ⟨k, by omega, part', hpart', hj⟩
          · rintro (⟨k, hk, hcov⟩ | hj)
            · exact ⟨k, by omega, hcov⟩
            · exact ⟨n, Nat.lt_succ_self n, part, hpart, hj⟩
        · by_cases heq : k = n
          · subst heq
            rw [hpart] at hpart'
            exact Option.some.inj hpart' ▸ hfits
          · exact hall k (by omega) part' hpart'
      · exact ⟨fun h => absurd (h n (Nat.lt_succ_self n) part hpart) hfits, fun _ => hone.2 hfits⟩
    · refine ⟨fun h => absurd (fun k hk => h k (by omega)) hall, fun _ => ?_⟩
      rw [hrest.2 hall]
      rfl

end Xklee.MakeSymbolic
