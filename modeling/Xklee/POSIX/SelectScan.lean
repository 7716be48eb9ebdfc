/-
The first loop of `select`.

After the descriptors below `n` the sets of the caller hold those of them that were asked for and
are symbolic, and the sets for the operating system hold the numbers of the others. The loop ends
there when all of these are open and have numbers that the macros are defined for. Otherwise it
ends early.
-/
import Xklee.POSIX.Select

set_option autoImplicit false

namespace Xklee.Select

open FdSet

/-- The descriptor is in the set of the caller. -/
def In (sets : SelectSet → Option FdSet) (i : ℕ) (w : SelectSet) : Prop :=
  ((sets w).getD FD_ZERO).has i = true

/-- The first loop goes on after the descriptor. -/
def Fine (fds : Fds) (sets : SelectSet → Option FdSet) (i : ℕ) : Prop :=
  ∀ w, In sets i w → (fds.get_file i).isSome = true ∧ ∀ fd, Concrete fds i fd → Defined fd

/-- The variables after the descriptors below a number. -/
structure Upto (fds : Fds) (sets : SelectSet → Option FdSet) (n : ℕ) (s : SelectState) : Prop where
  given : ∀ w, (s.out w).isSome = (sets w).isSome
  out : ∀ w i, ((s.out w).getD FD_ZERO).has i = true ↔ i < n ∧ In sets i w ∧ Symbolic fds i
  os : ∀ w fd, (s.os w).has fd = true ↔ ∃ i < n, In sets i w ∧ Concrete fds i fd
  count : s.count = ((bits s.out).image Prod.snd).card
  below : ∀ w fd, (s.os w).has fd = true → fd < s.os_nfds
  os_nfds : 0 < s.os_nfds → ∃ i < n, ∃ w fd, In sets i w ∧ Concrete fds i fd

variable {fds : Fds} {sets : SelectSet → Option FdSet} {n : ℕ} {s : SelectState}

/-! ## Bits -/

variable {i fd : ℕ} {out : SelectSet → Option FdSet} {w : SelectSet} {set : SelectSet → Bool}

theorem lt_FD_SETSIZE {p : FdSet} (h : p.has i = true) : i < FD_SETSIZE :=
  WordSet.lt_of_has h

theorem mem_bits {x : SelectSet × ℕ} :
    x ∈ bits out ↔ ((out x.1).getD FD_ZERO).has x.2 = true := by
  unfold bits
  rw [Finset.mem_filter, Finset.mem_product, Finset.mem_range]
  constructor
  · exact fun h => h.2
  · exact fun h => ⟨⟨Finset.mem_univ _, lt_FD_SETSIZE h⟩, h⟩

theorem defined_of_le {n : ℕ} (hn : n ≤ 30) : Defined n := by
  unfold Defined FD_SETSIZE NFDBITS
  omega

theorem has_insert (h : Defined fd) (p : FdSet) (i : ℕ) :
    (p.insert fd).has i = true ↔ i = fd ∨ p.has i = true :=
  p.has_insert h.1 i

/-- A descriptor is symbolic or has a number, and not both. -/
theorem not_symbolic_of_concrete (h : Concrete fds i fd) : ¬Symbolic fds i := by
  rintro ⟨f, hf, hsym⟩
  obtain ⟨f', hf', hconc, -⟩ := h
  rw [hf] at hf'
  obtain rfl := Option.some.inj hf'
  rw [hsym] at hconc
  cases hconc

theorem concrete_unique {fd' : ℕ} (h : Concrete fds i fd) (h' : Concrete fds i fd') :
    fd = fd' := by
  obtain ⟨f, hf, -, rfl⟩ := h
  obtain ⟨f', hf', -, rfl⟩ := h'
  rw [hf] at hf'
  obtain rfl := Option.some.inj hf'
  rfl

/-! ## One descriptor -/

/-- Where the loop starts. -/
theorem upto_zero (fds : Fds) (sets : SelectSet → Option FdSet) :
    Upto fds sets 0 ⟨fun w => (sets w).map fun _ => FD_ZERO, fun _ => FD_ZERO, 0, 0⟩ := by
  have hzero : ∀ w, ((sets w).map fun _ => FD_ZERO).getD FD_ZERO = FD_ZERO := by
    intro w
    cases sets w <;> rfl
  have hbits : bits (fun w => (sets w).map fun _ => FD_ZERO) = ∅ := by
    apply Finset.eq_empty_of_forall_notMem
    intro x hx
    rw [mem_bits, hzero] at hx
    exact absurd hx (by unfold FD_ZERO; rw [WordSet.has_empty]; decide)
  refine ⟨fun w => Option.isSome_map .., ?_, ?_, ?_, ?_, ?_⟩
  · intro w i
    rw [hzero]
    unfold FD_ZERO
    rw [WordSet.has_empty]
    constructor
    · intro h
      cases h
    · rintro ⟨h, -⟩
      omega
  · intro w fd
    show WordSet.empty.has fd = true ↔ _
    rw [WordSet.has_empty]
    constructor
    · intro h
      cases h
    · rintro ⟨i, hi, -⟩
      omega
  · show 0 = _
    rw [hbits]
    rfl
  · intro w fd h
    have h' : (WordSet.empty : FdSet).has fd = true := h
    rw [WordSet.has_empty] at h'
    cases h'
  · intro h
    exact absurd h (Nat.lt_irrefl 0)

/-- A descriptor that nothing asks for. -/
theorem Upto.skip (h : Upto fds sets n s) (hnone : ∀ w, ¬In sets n w) :
    Upto fds sets (n + 1) s := by
  refine ⟨h.given, ?_, ?_, h.count, h.below, ?_⟩
  · intro w i
    rw [h.out]
    constructor
    · exact fun ⟨hi, hin⟩ => ⟨by omega, hin⟩
    · rintro ⟨hi, hin, hsym⟩
      have hne : i ≠ n := by
        rintro rfl
        exact hnone w hin
      exact ⟨by omega, hin, hsym⟩
  · intro w fd
    rw [h.os]
    constructor
    · exact fun ⟨i, hi, hin⟩ => ⟨i, by omega, hin⟩
    · rintro ⟨i, hi, hin, hconc⟩
      have hne : i ≠ n := by
        rintro rfl
        exact hnone w hin
      exact ⟨i, by omega, hin, hconc⟩
  · intro hpos
    obtain ⟨i, hi, hrest⟩ := h.os_nfds hpos
    exact ⟨i, by omega, hrest⟩

theorem eachSet_eq_none {α : Type} {f : SelectSet → Option α} (h : f w = none) :
    eachSet f = none := by
  rw [Option.eq_none_iff_forall_not_mem]
  intro g hg
  have hw := eachSet_eq_some.mp hg w
  rw [h] at hw
  cases hw

/-- Setting a bit in the sets of the caller that are given. -/
theorem setOut_eq (hn : Defined n) (hgiven : ∀ w, set w = true → (out w).isSome = true) :
    setOut set n out = some fun w => if set w then (out w).map (·.insert n) else out w := by
  unfold setOut
  rw [eachSet_eq_some]
  intro w
  cases hset : set w with
  | false => rfl
  | true =>
    obtain ⟨p, hp⟩ := Option.isSome_iff_exists.mp (hgiven w hset)
    rw [if_pos rfl, if_pos rfl, hp]
    show (FD_SET n p).map some = _
    rw [FD_SET_of_defined hn]
    rfl

theorem setOs_eq (os : SelectSet → FdSet) (hfd : Defined fd) :
    setOs set fd os = some fun w => if set w then (os w).insert fd else os w := by
  unfold setOs
  rw [eachSet_eq_some]
  intro w
  cases set w with
  | false => rfl
  | true => exact FD_SET_of_defined hfd _

theorem setOs_eq_none (os : SelectSet → FdSet) (hfd : ¬Defined fd) (hset : set w = true) :
    setOs set fd os = none := by
  refine eachSet_eq_none (w := w) ?_
  rw [if_pos hset]
  exact FD_SET_of_not_defined hfd _

/-- A symbolic descriptor joins the sets of the caller, and counts once. -/
theorem Upto.symbolic (h : Upto fds sets n s) (hn : Defined n) (hsym : Symbolic fds n)
    (hset : ∀ w, set w = true ↔ In sets n w) (hsome : ∃ w, In sets n w) :
    Upto fds sets (n + 1)
      { s with
        out := fun w => if set w then (s.out w).map (·.insert n) else s.out w
        count := s.count + 1 } := by
  have hhas : ∀ w i,
      ((if set w then (s.out w).map (·.insert n) else s.out w).getD FD_ZERO).has i = true
        ↔ (In sets n w ∧ i = n) ∨ ((s.out w).getD FD_ZERO).has i = true := by
    intro w i
    cases hw : set w with
    | false =>
      have hnot : ¬In sets n w := fun hin => by
        rw [(hset w).mpr hin] at hw
        cases hw
      simp [hnot]
    | true =>
      have hin : In sets n w := (hset w).mp hw
      have hgiven : (s.out w).isSome = true := by
        rw [h.given w]
        unfold In at hin
        cases hs : sets w with
        | none =>
          rw [hs] at hin
          exact absurd hin (by unfold FD_ZERO; simp)
        | some p => rfl
      obtain ⟨p, hp⟩ := Option.isSome_iff_exists.mp hgiven
      rw [if_pos rfl, hp]
      show (p.insert n).has i = true ↔ _ ∨ p.has i = true
      rw [has_insert hn]
      simp [hin]
  refine ⟨?_, ?_, ?_, ?_, h.below, ?_⟩
  · intro w
    show Option.isSome (if set w = true then _ else _) = _
    rw [← h.given w]
    split
    · exact Option.isSome_map ..
    · rfl
  · intro w i
    rw [hhas, h.out]
    constructor
    · rintro (⟨hin, rfl⟩ | ⟨hi, hin⟩)
      · exact ⟨by omega, hin, hsym⟩
      · exact ⟨by omega, hin⟩
    · rintro ⟨hi, hin, hi'⟩
      by_cases heq : i = n
      · subst heq
        exact .inl ⟨hin, rfl⟩
      · exact .inr ⟨by omega, hin, hi'⟩
  · intro w fd
    rw [h.os]
    constructor
    · exact fun ⟨i, hi, hin⟩ => ⟨i, by omega, hin⟩
    · rintro ⟨i, hi, hin, hconc⟩
      have hne : i ≠ n := by
        rintro rfl
        exact not_symbolic_of_concrete hconc hsym
      exact ⟨i, by omega, hin, hconc⟩
  · -- the descriptor is new, since those before it are smaller
    show s.count + 1 = _
    have himage : (bits fun w => if set w then (s.out w).map (·.insert n) else s.out w).image
        Prod.snd = insert n ((bits s.out).image Prod.snd) := by
      ext i
      simp only [Finset.mem_image, Finset.mem_insert, mem_bits, hhas]
      constructor
      · rintro ⟨⟨w, j⟩, (⟨-, rfl⟩ | hj), rfl⟩
        · exact .inl rfl
        · exact .inr ⟨⟨w, j⟩, hj, rfl⟩
      · rintro (rfl | ⟨x, hx, rfl⟩)
        · obtain ⟨w, hw⟩ := hsome
          exact ⟨⟨w, i⟩, .inl ⟨hw, rfl⟩, rfl⟩
        · exact ⟨x, .inr hx, rfl⟩
    have hnew : n ∉ (bits s.out).image Prod.snd := by
      intro hmem
      obtain ⟨x, hx, hxn⟩ := Finset.mem_image.mp hmem
      rw [mem_bits, h.out, hxn] at hx
      exact Nat.lt_irrefl n hx.1
    rw [himage, Finset.card_insert_of_notMem hnew, h.count]
  · intro hpos
    obtain ⟨i, hi, hrest⟩ := h.os_nfds hpos
    exact ⟨i, by omega, hrest⟩

/-- Any other one joins the sets for the operating system, under its number. -/
theorem Upto.concrete (h : Upto fds sets n s) (hfd : Defined fd) (hconc : Concrete fds n fd)
    (hset : ∀ w, set w = true ↔ In sets n w) (hsome : ∃ w, In sets n w) :
    Upto fds sets (n + 1)
      { s with
        os := fun w => if set w then (s.os w).insert fd else s.os w
        os_nfds := if fd ≥ s.os_nfds then fd + 1 else s.os_nfds } := by
  have hhas : ∀ w j, (if set w then (s.os w).insert fd else s.os w).has j = true
      ↔ (In sets n w ∧ j = fd) ∨ (s.os w).has j = true := by
    intro w j
    cases hw : set w with
    | false =>
      have hnot : ¬In sets n w := fun hin => by
        rw [(hset w).mpr hin] at hw
        cases hw
      simp [hnot]
    | true =>
      rw [if_pos rfl, has_insert hfd]
      simp [(hset w).mp hw]
  refine ⟨h.given, ?_, ?_, h.count, ?_, ?_⟩
  · intro w i
    rw [h.out]
    constructor
    · exact fun ⟨hi, hin⟩ => ⟨by omega, hin⟩
    · rintro ⟨hi, hin, hsym⟩
      have hne : i ≠ n := by
        rintro rfl
        exact not_symbolic_of_concrete hconc hsym
      exact ⟨by omega, hin, hsym⟩
  · intro w j
    rw [hhas, h.os]
    constructor
    · rintro (⟨hin, rfl⟩ | ⟨i, hi, hin⟩)
      · exact ⟨n, by omega, hin, hconc⟩
      · exact ⟨i, by omega, hin⟩
    · rintro ⟨i, hi, hin, hi'⟩
      by_cases heq : i = n
      · subst heq
        exact .inl ⟨hin, concrete_unique hi' hconc⟩
      · exact .inr ⟨i, by omega, hin, hi'⟩
  · intro w j hj
    rw [hhas] at hj
    show j < if fd ≥ s.os_nfds then fd + 1 else s.os_nfds
    rcases hj with ⟨-, rfl⟩ | hj
    · split <;> omega
    · have := h.below w j hj
      split <;> omega
  · intro _
    obtain ⟨w, hw⟩ := hsome
    exact ⟨n, by omega, w, fd, hw, hconc⟩

/-- The body of the loop. Where it ends the loop, a descriptor that is asked for is not open, or
there is no value. -/
theorem scanOne_spec (hn : n ≤ 30) (h : Upto fds sets n s) :
    (Fine fds sets n → ∃ s', scanOne fds (fun w => (sets w).getD FD_ZERO) n s = some (.all s')
        ∧ Upto fds sets (n + 1) s')
      ∧ (¬Fine fds sets n → scanOne fds (fun w => (sets w).getD FD_ZERO) n s = none
        ∨ scanOne fds (fun w => (sets w).getD FD_ZERO) n s = some (.bad s)
          ∧ fds.get_file n = none ∧ ∃ w, In sets n w) := by
  have hset : eachSet (fun w => FD_ISSET n ((sets w).getD FD_ZERO))
      = some fun w => ((sets w).getD FD_ZERO).has n :=
    eachSet_eq_some.mpr fun w => FD_ISSET_of_defined (defined_of_le hn) _
  unfold scanOne
  rw [hset, Option.bind_some]
  by_cases hsome : ∃ w, In sets n w
  · have hany : (((sets .read).getD FD_ZERO).has n || ((sets .write).getD FD_ZERO).has n
        || ((sets .except).getD FD_ZERO).has n) = true := by
      obtain ⟨w, hw⟩ := hsome
      unfold In at hw
      cases w <;> simp [hw]
    rw [if_pos hany]
    unfold scanAsked
    cases hf : fds.get_file n with
    | none =>
      have hnot : ¬Fine fds sets n := by
        intro hfine
        obtain ⟨w, hw⟩ := hsome
        have := (hfine w hw).1
        rw [hf] at this
        cases this
      exact ⟨fun hfine => absurd hfine hnot, fun _ => .inr ⟨rfl, rfl, hsome⟩⟩
    | some f =>
      show _ ∧ _
      cases hd : (fds f).dfile.isSome with
      | true =>
        have hsym : Symbolic fds n := ⟨f, hf, hd⟩
        have hgiven : ∀ w, ((sets w).getD FD_ZERO).has n = true → (s.out w).isSome = true := by
          intro w hw
          rw [h.given w]
          cases hs : sets w with
          | none =>
            rw [hs] at hw
            exact absurd hw (by unfold FD_ZERO; simp)
          | some p => rfl
        have hfine : Fine fds sets n := by
          intro w _
          rw [hf]
          exact ⟨rfl, fun fd hconc => absurd hsym (not_symbolic_of_concrete hconc)⟩
        refine ⟨fun _ => ?_, fun hnot => absurd hfine hnot⟩
        simp only [hd, if_true]
        rw [setOut_eq (defined_of_le hn) hgiven]
        exact ⟨_, rfl, h.symbolic (defined_of_le hn) hsym (fun w => Iff.rfl) hsome⟩
      | false =>
        have hconc : Concrete fds n (fds f).fd := ⟨f, hf, hd, rfl⟩
        simp only [hd, Bool.false_eq_true, if_false]
        by_cases hfd : Defined (fds f).fd
        · have hfine : Fine fds sets n := by
            intro w _
            rw [hf]
            exact ⟨rfl, fun fd hc => concrete_unique hconc hc ▸ hfd⟩
          refine ⟨fun _ => ?_, fun hnot => absurd hfine hnot⟩
          rw [setOs_eq _ hfd]
          exact ⟨_, rfl, h.concrete hfd hconc (fun w => Iff.rfl) hsome⟩
        · obtain ⟨w, hw⟩ := hsome
          refine ⟨fun hfine => absurd ((hfine w hw).2 _ hconc) hfd, fun _ => .inl ?_⟩
          have hset : ((sets w).getD FD_ZERO).has n = true := hw
          rw [setOs_eq_none _ hfd hset]
          rfl
  · have hnone : ∀ w, ¬In sets n w := fun w hw => hsome ⟨w, hw⟩
    have hfine : Fine fds sets n := fun w hw => absurd hw (hnone w)
    have hany : ¬(((sets .read).getD FD_ZERO).has n || ((sets .write).getD FD_ZERO).has n
        || ((sets .except).getD FD_ZERO).has n) = true := by
      rw [Bool.or_eq_true, Bool.or_eq_true]
      rintro ((hw | hw) | hw)
      · exact hnone _ hw
      · exact hnone _ hw
      · exact hnone _ hw
    rw [if_neg hany]
    exact ⟨fun _ => ⟨s, rfl, h.skip hnone⟩, fun hnot => absurd hfine hnot⟩

/-! ## The whole loop -/

/-- The loop over the descriptors from one number to another. -/
theorem scan_spec (k : ℕ) (hk : n + k ≤ 31) (h : Upto fds sets n s) :
    ((∀ i, n ≤ i → i < n + k → Fine fds sets i) →
        ∃ s', scan fds (fun w => (sets w).getD FD_ZERO) (List.range' n k) s = some (.all s')
          ∧ Upto fds sets (n + k) s')
      ∧ ((¬∀ i, n ≤ i → i < n + k → Fine fds sets i) →
        scan fds (fun w => (sets w).getD FD_ZERO) (List.range' n k) s = none
          ∨ ∃ s' i, scan fds (fun w => (sets w).getD FD_ZERO) (List.range' n k) s
              = some (.bad s') ∧ Upto fds sets i s' ∧ i < n + k ∧ fds.get_file i = none
              ∧ ∃ w, In sets i w) := by
  induction k generalizing n s with
  | zero => exact ⟨fun _ => ⟨s, rfl, h⟩, fun hnot => absurd (fun i hi hi' => by omega) hnot⟩
  | succ k ih =>
    rw [List.range'_succ]
    unfold scan
    have hone := scanOne_spec (by omega) h
    by_cases hfine : Fine fds sets n
    · obtain ⟨s', hs', hupto⟩ := hone.1 hfine
      rw [hs', Option.bind_some]
      have hrest := ih (by omega) hupto
      have hiff : (∀ i, n ≤ i → i < n + (k + 1) → Fine fds sets i)
          ↔ ∀ i, n + 1 ≤ i → i < n + 1 + k → Fine fds sets i := by
        constructor
        · exact fun hall i hi hi' => hall i (by omega) (by omega)
        · intro hall i hi hi'
          by_cases heq : i = n
          · exact heq ▸ hfine
          · exact hall i (by omega) (by omega)
      rw [hiff, show n + (k + 1) = n + 1 + k by omega]
      exact hrest
    · refine ⟨fun hall => absurd (hall n (Nat.le_refl n) (by omega)) hfine, fun _ => ?_⟩
      rcases hone.2 hfine with hnone | ⟨hbad, hclosed, hin⟩
      · rw [hnone]
        exact .inl rfl
      · rw [hbad]
        exact .inr ⟨s, n, rfl, h, by omega, hclosed, hin⟩

theorem scan_cons (ins : SelectSet → FdSet) (i : ℕ) (is : List ℕ) :
    scan fds ins (i :: is) s
      = (scanOne fds ins i s).bind fun
          | .bad s => some (.bad s)
          | .all s => scan fds ins is s := rfl

theorem scan_append (ins : SelectSet → FdSet) (is js : List ℕ) :
    scan fds ins (is ++ js) s
      = (scan fds ins is s).bind fun
          | .bad s => some (.bad s)
          | .all s => scan fds ins js s := by
  induction is generalizing s with
  | nil => rfl
  | cons i is ih =>
    rw [List.cons_append, scan_cons, scan_cons]
    cases scanOne fds ins i s with
    | none => rfl
    | some r =>
      rcases r with s' | s'
      · rfl
      · show scan fds ins (is ++ js) s' = _
        rw [ih]
        rfl

end Xklee.Select
