/-
When `select` is right.

The second loop adds to the sets of the caller every descriptor whose number the operating system
reports, asked for or not. The bits are then counted, on one side by descriptors and on the other by
descriptors and sets: a sum is right when neither map from the one to the other joins two bits.
-/
import Xklee.POSIX.SelectScan

set_option autoImplicit false

namespace Xklee.Select

open FdSet

variable {fds : Fds} {nfds : ℤ} {sets : SelectSet → Option FdSet}
  {res : Option (ℕ × (SelectSet → FdSet))} {n : ℕ} {s : SelectState}

/-! ## The second loop -/

/-- The second loop goes on after the descriptor. -/
def Translates (fds : Fds) (i : ℕ) : Prop := ∀ fd, Concrete fds i fd → Defined fd

/-- What one round adds to a set. -/
theorem translateOne_spec (hn : n ≤ 30) (fds : Fds) (os : SelectSet → FdSet)
    (out : SelectSet → Option FdSet) :
    (Translates fds n → ∃ out', translateOne fds os out n = some out'
        ∧ (∀ w, (out' w).isSome = (out w).isSome)
        ∧ ∀ w i, ((out' w).getD FD_ZERO).has i = true ↔ ((out w).getD FD_ZERO).has i = true
          ∨ i = n ∧ (out w).isSome = true ∧ ∃ fd, Concrete fds n fd ∧ (os w).has fd = true)
      ∧ (¬Translates fds n → (∃ w, (out w).isSome = true) → translateOne fds os out n = none) := by
  unfold translateOne
  -- a descriptor that is not open, or symbolic, adds nothing
  have hskip : (∀ fd, ¬Concrete fds n fd) →
      (Translates fds n → ∃ out', some out = some out'
        ∧ (∀ w, (out' w).isSome = (out w).isSome)
        ∧ ∀ w i, ((out' w).getD FD_ZERO).has i = true ↔ ((out w).getD FD_ZERO).has i = true
          ∨ i = n ∧ (out w).isSome = true ∧ ∃ fd, Concrete fds n fd ∧ (os w).has fd = true)
      ∧ (¬Translates fds n → (∃ w, (out w).isSome = true) → some out = none) := by
    intro hno
    refine ⟨fun _ => ⟨out, rfl, fun _ => rfl, fun w i => ?_⟩, fun hnot => ?_⟩
    · constructor
      · exact .inl
      · rintro (h | ⟨-, -, fd, hconc, -⟩)
        · exact h
        · exact absurd hconc (hno fd)
    · exact absurd (fun fd hconc => absurd hconc (hno fd)) hnot
  cases hf : fds.get_file n with
  | none =>
    apply hskip
    rintro fd ⟨f, hf', -⟩
    rw [hf] at hf'
    cases hf'
  | some f =>
    show _ ∧ _
    cases hd : (fds f).dfile.isSome with
    | true =>
      simp only [hd, if_true]
      apply hskip
      intro fd hconc
      exact not_symbolic_of_concrete hconc ⟨f, hf, hd⟩
    | false =>
      have hconc : Concrete fds n (fds f).fd := ⟨f, hf, hd, rfl⟩
      simp only [hd, Bool.false_eq_true, if_false]
      by_cases hfd : Defined (fds f).fd
      · refine ⟨fun _ => ?_, fun hnot => absurd (fun fd hc => concrete_unique hconc hc ▸ hfd) hnot⟩
        have hset : ∀ w, translateSet n (fds f).fd (os w) (out w)
            = some ((out w).map fun p => if (os w).has (fds f).fd then p.insert n else p) := by
          intro w
          unfold translateSet
          cases out w with
          | none => rfl
          | some p =>
            show (FD_ISSET (fds f).fd (os w)).bind _ = _
            rw [FD_ISSET_of_defined hfd, Option.bind_some]
            cases (os w).has (fds f).fd with
            | false => rfl
            | true =>
              show (FD_SET n p).map some = _
              rw [FD_SET_of_defined (defined_of_le hn)]
              rfl
        refine ⟨_, eachSet_eq_some.mpr hset, fun w => Option.isSome_map .., fun w i => ?_⟩
        have hiff : (∃ fd, Concrete fds n fd ∧ (os w).has fd = true)
            ↔ (os w).has (fds f).fd = true :=
          ⟨fun ⟨fd, hc, hh⟩ => concrete_unique hc hconc ▸ hh, fun hh => ⟨_, hconc, hh⟩⟩
        rw [hiff]
        cases hw : out w with
        | none => simp
        | some p =>
          show (if (os w).has (fds f).fd = true then p.insert n else p).has i = true ↔ p.has i = true
            ∨ i = n ∧ true = true ∧ _
          cases (os w).has (fds f).fd with
          | false => simp
          | true =>
            rw [if_pos rfl, has_insert (defined_of_le hn)]
            simp [or_comm]
      · refine ⟨fun hall => absurd (hall _ hconc) hfd, fun _ => ?_⟩
        rintro ⟨w, hw⟩
        obtain ⟨p, hp⟩ := Option.isSome_iff_exists.mp hw
        refine eachSet_eq_none (w := w) ?_
        rw [hp]
        show (FD_ISSET (fds f).fd (os w)).bind _ = _
        rw [FD_ISSET_of_not_defined hfd]
        rfl

/-- What the loop adds to a set. -/
theorem translate_spec (fds : Fds) (k : ℕ) (hk : n + k ≤ 31) (os : SelectSet → FdSet)
    (out : SelectSet → Option FdSet) :
    ((∀ i, n ≤ i → i < n + k → Translates fds i) →
        ∃ out', (List.range' n k).foldlM (translateOne fds os) out = some out'
        ∧ (∀ w, (out' w).isSome = (out w).isSome)
        ∧ ∀ w i, ((out' w).getD FD_ZERO).has i = true ↔ ((out w).getD FD_ZERO).has i = true
          ∨ (n ≤ i ∧ i < n + k) ∧ (out w).isSome = true
            ∧ ∃ fd, Concrete fds i fd ∧ (os w).has fd = true)
      ∧ ((¬∀ i, n ≤ i → i < n + k → Translates fds i) → (∃ w, (out w).isSome = true) →
        (List.range' n k).foldlM (translateOne fds os) out = none) := by
  induction k generalizing n out with
  | zero =>
    refine ⟨fun _ => ⟨out, rfl, fun _ => rfl, fun w i => ?_⟩,
      fun hnot => absurd (fun i hi hi' => by omega) hnot⟩
    constructor
    · exact .inl
    · rintro (h | ⟨⟨hi, hi'⟩, -⟩)
      · exact h
      · omega
  | succ k ih =>
    have hone := translateOne_spec (show n ≤ 30 by omega) fds os out
    rw [List.range'_succ, List.foldlM_cons]
    by_cases hn : Translates fds n
    · obtain ⟨out₁, hout₁, hgiven₁, hhas₁⟩ := hone.1 hn
      show (_ → ∃ out', (translateOne fds os out n).bind _ = some out' ∧ _)
        ∧ (_ → _ → (translateOne fds os out n).bind _ = none)
      rw [hout₁, Option.bind_some]
      have hrest := ih (n := n + 1) (by omega) out₁
      have hiff : (∀ i, n ≤ i → i < n + (k + 1) → Translates fds i)
          ↔ ∀ i, n + 1 ≤ i → i < n + 1 + k → Translates fds i := by
        constructor
        · exact fun hall i hi hi' => hall i (by omega) (by omega)
        · intro hall i hi hi'
          by_cases heq : i = n
          · exact heq ▸ hn
          · exact hall i (by omega) (by omega)
      rw [hiff]
      refine ⟨fun hall => ?_, fun hnot hsome => ?_⟩
      · obtain ⟨out', hout', hgiven', hhas'⟩ := hrest.1 hall
        refine ⟨out', hout', fun w => (hgiven' w).trans (hgiven₁ w), fun w i => ?_⟩
        rw [hhas', hhas₁, hgiven₁]
        constructor
        · rintro ((h | ⟨rfl, hadd⟩) | ⟨⟨hi, hi'⟩, hadd⟩)
          · exact .inl h
          · exact .inr ⟨⟨Nat.le_refl _, by omega⟩, hadd⟩
          · exact .inr ⟨⟨by omega, by omega⟩, hadd⟩
        · rintro (h | ⟨⟨hi, hi'⟩, hadd⟩)
          · exact .inl (.inl h)
          · by_cases heq : i = n
            · subst heq
              exact .inl (.inr ⟨rfl, hadd⟩)
            · exact .inr ⟨⟨by omega, by omega⟩, hadd⟩
      · refine hrest.2 hnot ?_
        obtain ⟨w, hw⟩ := hsome
        exact ⟨w, (hgiven₁ w).trans hw⟩
    · refine ⟨fun hall => absurd (hall n (Nat.le_refl n) (by omega)) hn, fun _ hsome => ?_⟩
      show (translateOne fds os out n).bind _ = none
      rw [hone.2 hn hsome]
      rfl

/-! ## Counting -/

variable {i : ℕ} {w : SelectSet} {B : Finset (SelectSet × ℕ)}

theorem asked_iff :
    Asked nfds sets i w ↔ i < nfds.toNat ∧ In sets i w := by
  unfold Asked In
  have hlt : (i : ℤ) < nfds ↔ i < nfds.toNat := by omega
  rw [hlt]

theorem isSome_of_in (h : In sets i w) : (sets w).isSome = true := by
  unfold In at h
  cases hs : sets w with
  | none =>
    rw [hs] at h
    exact absurd h (by unfold FD_ZERO; simp)
  | some p => rfl

/-- The symbolic descriptors are counted by descriptors, which is right when each is asked for in
one set. -/
theorem count_eq_iff (h : Upto fds sets nfds.toNat s) :
    s.count = (bits s.out).card ↔ ∀ i w w', Symbolic fds i → Asked nfds sets i w →
      Asked nfds sets i w' → w = w' := by
  rw [h.count, Finset.card_image_iff]
  constructor
  · intro hinj i w w' hsym hw hw'
    have hmem : ∀ v, Asked nfds sets i v → (⟨v, i⟩ : SelectSet × ℕ) ∈ (bits s.out : Set _) := by
      intro v hv
      rw [Finset.mem_coe, mem_bits, h.out]
      exact ⟨(asked_iff.mp hv).1, (asked_iff.mp hv).2, hsym⟩
    exact congrArg Prod.fst (hinj (hmem w hw) (hmem w' hw') rfl)
  · rintro honce ⟨w, i⟩ hx ⟨w', i'⟩ hx' heq
    obtain rfl : i = i' := heq
    rw [Finset.mem_coe, mem_bits, h.out] at hx hx'
    have hw := honce i w w' hx.2.2 (asked_iff.mpr ⟨hx.1, hx.2.1⟩) (asked_iff.mpr ⟨hx'.1, hx'.2.1⟩)
    rw [hw]

/-- The number of a descriptor for the operating system. -/
def osFd (fds : Fds) (i : ℕ) : ℕ := ((fds.get_file i).map fun f => (fds f).fd).getD 0

theorem osFd_eq {fd : ℕ} (h : Concrete fds i fd) : osFd fds i = fd := by
  obtain ⟨f, hf, -, rfl⟩ := h
  unfold osFd
  rw [hf]
  rfl

/-- The descriptors that the second loop adds have numbers that are reported, and all of them. -/
theorem reported_eq_image (hdoc : Documented fds nfds sets res)
    (hB : ∀ x, x ∈ B ↔ x.2 < nfds.toNat ∧ (sets x.1).isSome = true
      ∧ ∃ fd, Concrete fds x.2 fd ∧ (reported res x.1).has fd = true) :
    bits (fun w => some (reported res w)) = B.image fun x => (x.1, osFd fds x.2) := by
  ext ⟨w, fd⟩
  rw [mem_bits, Finset.mem_image]
  constructor
  · intro hfd
    obtain ⟨i, hi, hconc⟩ := hdoc.asked w fd hfd
    refine ⟨⟨w, i⟩, (hB _).mpr ⟨(asked_iff.mp hi).1, isSome_of_in (asked_iff.mp hi).2,
      fd, hconc, hfd⟩, ?_⟩
    rw [osFd_eq hconc]
  · rintro ⟨⟨w', i⟩, hx, heq⟩
    obtain ⟨-, -, fd', hconc, hfd'⟩ := (hB _).mp hx
    rw [osFd_eq hconc] at heq
    obtain ⟨rfl, rfl⟩ := Prod.mk.inj heq
    exact hfd'

/-- No two descriptors share a number that is reported. -/
def Alone (fds : Fds) (nfds : ℤ) (res : Option (ℕ × (SelectSet → FdSet))) : Prop :=
  ∀ w fd, (reported res w).has fd = true →
    ∀ i j : ℕ, (i : ℤ) < nfds → (j : ℤ) < nfds → Concrete fds i fd → Concrete fds j fd → i = j

/-- A symbolic descriptor is asked for in one set. -/
def Once (fds : Fds) (nfds : ℤ) (sets : SelectSet → Option FdSet) : Prop :=
  ∀ i w w', Symbolic fds i → Asked nfds sets i w → Asked nfds sets i w' → w = w'

theorem alone_iff_injOn (hdoc : Documented fds nfds sets res)
    (hB : ∀ x, x ∈ B ↔ x.2 < nfds.toNat ∧ (sets x.1).isSome = true
      ∧ ∃ fd, Concrete fds x.2 fd ∧ (reported res x.1).has fd = true) :
    Alone fds nfds res ↔ Set.InjOn (fun x : SelectSet × ℕ => (x.1, osFd fds x.2)) B := by
  constructor
  · rintro halone ⟨w, i⟩ hx ⟨w', j⟩ hx' heq
    obtain ⟨hi, -, fd, hconc, hfd⟩ := (hB _).mp hx
    obtain ⟨hj, -, fd', hconc', -⟩ := (hB _).mp hx'
    have heq' : (w, osFd fds i) = (w', osFd fds j) := heq
    rw [osFd_eq hconc, osFd_eq hconc'] at heq'
    obtain ⟨rfl, rfl⟩ := Prod.mk.inj heq'
    have hij : i = j := halone w fd hfd i j (by omega) (by omega) hconc hconc'
    rw [hij]
  · intro hinj w fd hfd i j hi hj hconc hconc'
    -- some descriptor asks for the number, so that the set of the caller is there
    obtain ⟨k, hk, -⟩ := hdoc.asked w fd hfd
    have hgiven : (sets w).isSome = true := isSome_of_in (asked_iff.mp hk).2
    have hmem : (⟨w, i⟩ : SelectSet × ℕ) ∈ (B : Set _) :=
      (hB _).mpr ⟨by omega, hgiven, fd, hconc, hfd⟩
    have hmem' : (⟨w, j⟩ : SelectSet × ℕ) ∈ (B : Set _) :=
      (hB _).mpr ⟨by omega, hgiven, fd, hconc', hfd⟩
    have heq := hinj hmem hmem' (by show (w, osFd fds i) = (w, osFd fds j); rw [osFd_eq hconc, osFd_eq hconc'])
    exact congrArg Prod.snd heq

/-- Sets that hold the symbolic descriptors and those with a number that is reported. They hold
what they should, and as many bits as are counted, when nothing is counted twice and nothing is
reported for two. -/
theorem sums_iff (h : Upto fds sets nfds.toNat s) (hdoc : Documented fds nfds sets res)
    (out' : SelectSet → Option FdSet)
    (hout' : ∀ w i, ((out' w).getD FD_ZERO).has i = true ↔ ((s.out w).getD FD_ZERO).has i = true
      ∨ i < nfds.toNat ∧ (sets w).isSome = true
        ∧ ∃ fd, Concrete fds i fd ∧ (reported res w).has fd = true) :
    ((∀ w i, ((out' w).getD FD_ZERO).has i = true ↔ Asked nfds sets i w
        ∧ (Symbolic fds i ∨ ∃ fd, Concrete fds i fd ∧ (reported res w).has fd = true))
      ∧ ((s.count + (bits fun w => some (reported res w)).card : ℕ) : ℤ) = (bits out').card)
      ↔ Once fds nfds sets ∧ Alone fds nfds res := by
  -- the descriptors with a number that is reported
  set B : Finset (SelectSet × ℕ) := bits out' \ bits s.out with hBdef
  have hsub : bits s.out ⊆ bits out' := by
    intro x hx
    rw [mem_bits] at hx ⊢
    exact (hout' _ _).mpr (.inl hx)
  have hB : ∀ x, x ∈ B ↔ x.2 < nfds.toNat ∧ (sets x.1).isSome = true
      ∧ ∃ fd, Concrete fds x.2 fd ∧ (reported res x.1).has fd = true := by
    intro x
    rw [hBdef, Finset.mem_sdiff, mem_bits, mem_bits, hout']
    constructor
    · rintro ⟨hx | hx, hnot⟩
      · exact absurd hx hnot
      · exact hx
    · intro hx
      refine ⟨.inr hx, fun hsym => ?_⟩
      obtain ⟨-, -, fd, hconc, -⟩ := hx
      exact not_symbolic_of_concrete hconc ((h.out _ _).mp hsym).2.2
  have hcard : (bits out').card = B.card + (bits s.out).card :=
    (Finset.card_sdiff_add_card_eq_card hsub).symm
  have hle : s.count ≤ (bits s.out).card := by
    rw [h.count]
    exact Finset.card_image_le
  have honce : s.count = (bits s.out).card ↔ Once fds nfds sets := count_eq_iff h
  have himage := reported_eq_image hdoc hB
  have hle' : (bits fun w => some (reported res w)).card ≤ B.card := by
    rw [himage]
    exact Finset.card_image_le
  have halone : (bits fun w => some (reported res w)).card = B.card ↔ Alone fds nfds res := by
    rw [himage, Finset.card_image_iff, alone_iff_injOn hdoc hB]
  constructor
  · rintro ⟨-, hsum⟩
    have hsum' : s.count + (bits fun w => some (reported res w)).card = (bits out').card := by
      exact_mod_cast hsum
    exact ⟨honce.mp (by omega), halone.mp (by omega)⟩
  · rintro ⟨ho, ha⟩
    have hcount := honce.mpr ho
    have hreported := halone.mpr ha
    refine ⟨fun w i => ?_, by push_cast; omega⟩
    rw [hout', h.out]
    constructor
    · rintro (⟨hi, hin, hsym⟩ | ⟨hi, -, fd, hconc, hfd⟩)
      · exact ⟨asked_iff.mpr ⟨hi, hin⟩, .inl hsym⟩
      · -- the number was asked for by this very descriptor
        obtain ⟨j, hj, hconc'⟩ := hdoc.asked w fd hfd
        have hij : i = j := ha w fd hfd i j (by omega) hj.1 hconc hconc'
        subst hij
        exact ⟨hj, .inr ⟨fd, hconc, hfd⟩⟩
    · rintro ⟨hasked, hsym | ⟨fd, hconc, hfd⟩⟩
      · exact .inl ⟨(asked_iff.mp hasked).1, (asked_iff.mp hasked).2, hsym⟩
      · exact .inr ⟨(asked_iff.mp hasked).1, isSome_of_in (asked_iff.mp hasked).2, fd, hconc, hfd⟩

/-! ## The call -/

/-- What a result has to be. -/
def Right (fds : Fds) (nfds : ℤ) (sets : SelectSet → Option FdSet)
    (res : Option (ℕ × (SelectSet → FdSet))) (a : SelectResult) : Prop :=
  (a.value = -1 → a.out = sets)
    ∧ (a.value ≠ -1 →
      (∀ w i, ((a.out w).getD FD_ZERO).has i = true ↔ Asked nfds sets i w
        ∧ (Symbolic fds i ∨ ∃ fd, Concrete fds i fd ∧ (reported res w).has fd = true))
      ∧ a.value = (bits a.out).card)

/-- A call that fails after the sets were cleared has lost what it was asked. -/
theorem not_right_of_lost {a : SelectResult} (hvalue : a.value = -1) (hin : In sets i w)
    (hout : ¬((a.out w).getD FD_ZERO).has i = true) :
    ¬Right fds nfds sets res a := by
  intro hright
  rw [hright.1 hvalue] at hout
  exact hout hin

/-- A descriptor that is asked for makes the call ask the operating system, unless it is
symbolic. -/
theorem os_nfds_pos_iff (h : Upto fds sets nfds.toNat s) :
    0 < s.os_nfds ↔ ∃ i w fd, Asked nfds sets i w ∧ Concrete fds i fd := by
  constructor
  · intro hpos
    obtain ⟨i, hi, w, fd, hin, hconc⟩ := h.os_nfds hpos
    exact ⟨i, w, fd, asked_iff.mpr ⟨hi, hin⟩, hconc⟩
  · rintro ⟨i, w, fd, hasked, hconc⟩
    have hfd : (s.os w).has fd = true :=
      (h.os w fd).mpr ⟨i, (asked_iff.mp hasked).1, (asked_iff.mp hasked).2, hconc⟩
    exact Nat.lt_of_le_of_lt (Nat.zero_le fd) (h.below w fd hfd)

/-- Nothing is reported when nothing is asked, or when the call fails. -/
theorem sums_iff_of_empty (h : Upto fds sets nfds.toNat s) (hdoc : Documented fds nfds sets res)
    (hempty : ∀ w fd, ¬(reported res w).has fd = true) :
    Right fds nfds sets res ⟨s.count, none, s.out⟩
      ↔ Once fds nfds sets ∧ Alone fds nfds res := by
  have hbits : (bits fun w => some (reported res w)) = ∅ := by
    apply Finset.eq_empty_of_forall_notMem
    intro x hx
    rw [mem_bits] at hx
    exact hempty _ _ hx
  have hsums := sums_iff h hdoc s.out fun w i => by
    constructor
    · exact .inl
    · rintro (hi | ⟨-, -, fd, -, hfd⟩)
      · exact hi
      · exact absurd hfd (hempty w fd)
  rw [hbits, Finset.card_empty, Nat.add_zero] at hsums
  rw [← hsums]
  have hne : ((s.count : ℕ) : ℤ) ≠ -1 := by omega
  exact ⟨fun hright => hright.2 hne, fun hsum => ⟨fun h0 => absurd h0 hne, fun _ => hsum⟩⟩

/-- From the call of the operating system on. -/
theorem ask_right_iff (hsmall : nfds ≤ 31) (h : Upto fds sets nfds.toNat s)
    (hdoc : Documented fds nfds sets res) :
    (∃ a, ask fds nfds res s = some a ∧ Right fds nfds sets res a)
      ↔ (Once fds nfds sets ∧ Alone fds nfds res)
        ∧ ((∃ i w fd, Asked nfds sets i w ∧ Concrete fds i fd) →
          (res = none → ∃ j w', Asked nfds sets j w' ∧ Symbolic fds j)
            ∧ (res ≠ none → ∀ j : ℕ, (j : ℤ) < nfds → Translates fds j)) := by
  unfold ask
  rw [← os_nfds_pos_iff h]
  by_cases hpos : 0 < s.os_nfds
  · rw [if_pos hpos]
    obtain ⟨i, w, fd, hasked, hconc⟩ := (os_nfds_pos_iff h).mp hpos
    cases res with
    | none =>
      have hempty : ∀ w fd, ¬(reported none w).has fd = true := by
        intro w fd
        unfold reported FD_ZERO
        simp
      have hsome : s.count ≠ 0 ↔ ∃ j w', Asked nfds sets j w' ∧ Symbolic fds j := by
        rw [h.count, Ne, Finset.card_eq_zero, ← Ne, ← Finset.nonempty_iff_ne_empty,
          Finset.image_nonempty]
        constructor
        · rintro ⟨⟨w', j⟩, hx⟩
          rw [mem_bits, h.out] at hx
          exact ⟨j, w', asked_iff.mpr ⟨hx.1, hx.2.1⟩, hx.2.2⟩
        · rintro ⟨j, w', hj, hsym⟩
          exact ⟨⟨w', j⟩, mem_bits.mpr ((h.out _ _).mpr
            ⟨(asked_iff.mp hj).1, (asked_iff.mp hj).2, hsym⟩)⟩
      by_cases hcount : s.count = 0
      · -- the sets were cleared, and the descriptor is in one of them
        have hnot : ¬∃ j w', Asked nfds sets j w' ∧ Symbolic fds j := fun hex =>
          hsome.mpr hex hcount
        have hlost : ¬((s.out w).getD FD_ZERO).has i = true := fun hi =>
          not_symbolic_of_concrete hconc ((h.out w i).mp hi).2.2
        constructor
        · rintro ⟨a, ha, hright⟩
          rw [if_pos hcount] at ha
          obtain rfl := Option.some.inj ha
          exact absurd hright (not_right_of_lost rfl (asked_iff.mp hasked).2 hlost)
        · rintro ⟨-, hrest⟩
          exact absurd ((hrest hpos).1 rfl) hnot
      · simp only [if_neg hcount]
        constructor
        · rintro ⟨a, ha, hright⟩
          obtain rfl := Option.some.inj ha
          exact ⟨(sums_iff_of_empty h hdoc hempty).mp hright, fun _ =>
            ⟨fun _ => hsome.mp hcount, fun hne => absurd rfl hne⟩⟩
        · rintro ⟨hsum, -⟩
          exact ⟨_, rfl, (sums_iff_of_empty h hdoc hempty).mpr hsum⟩
    | some answer =>
      obtain ⟨r, os⟩ := answer
      have hspec := translate_spec fds (n := 0) nfds.toNat (by omega) os s.out
      rw [Nat.zero_add] at hspec
      have hall : (∀ i, 0 ≤ i → i < nfds.toNat → Translates fds i)
          ↔ ∀ j : ℕ, (j : ℤ) < nfds → Translates fds j :=
        ⟨fun hi j hj => hi j (Nat.zero_le j) (by omega), fun hj i _ hi => hj i (by omega)⟩
      rw [hall] at hspec
      rw [List.range_eq_range']
      by_cases htr : ∀ j : ℕ, (j : ℤ) < nfds → Translates fds j
      · obtain ⟨out', hout', hgiven', hhas'⟩ := hspec.1 htr
        show (∃ a, ((List.range' 0 nfds.toNat).foldlM (translateOne fds os) s.out).map _ = some a
          ∧ _) ↔ _
        rw [hout']
        have hreported : (fun w => some (reported (some (r, os)) w)) = fun w => some (os w) := rfl
        have hsums := sums_iff h hdoc out' fun w i => by
          rw [hhas', h.given]
          simp only [Nat.zero_le, true_and]
          rfl
        rw [hreported, ← hdoc.count r os rfl] at hsums
        have hne : ((s.count + r : ℕ) : ℤ) ≠ -1 := by omega
        rw [← hsums]
        constructor
        · rintro ⟨a, ha, hright⟩
          obtain rfl := Option.some.inj ha
          exact ⟨hright.2 hne, fun _ => ⟨fun h0 => absurd h0 (by simp), fun _ => htr⟩⟩
        · rintro ⟨hsum, -⟩
          exact ⟨_, rfl, fun h0 => absurd h0 hne, fun _ => hsum⟩
      · have hgiven : ∃ w, (s.out w).isSome = true :=
          ⟨w, (h.given w).trans (isSome_of_in (asked_iff.mp hasked).2)⟩
        show (∃ a, ((List.range' 0 nfds.toNat).foldlM (translateOne fds os) s.out).map _ = some a
          ∧ _) ↔ _
        rw [hspec.2 htr hgiven]
        constructor
        · rintro ⟨a, ha, -⟩
          cases ha
        · rintro ⟨-, hrest⟩
          exact absurd ((hrest hpos).2 (by simp)) htr
  · rw [if_neg hpos]
    have hempty : ∀ w fd, ¬(reported res w).has fd = true := by
      intro w fd hfd
      obtain ⟨i, hi, hconc⟩ := hdoc.asked w fd hfd
      exact hpos ((os_nfds_pos_iff h).mpr ⟨i, w, fd, hi, hconc⟩)
    constructor
    · rintro ⟨a, ha, hright⟩
      obtain rfl := Option.some.inj ha
      exact ⟨(sums_iff_of_empty h hdoc hempty).mp hright, fun h0 => absurd h0 hpos⟩
    · rintro ⟨hsum, -⟩
      exact ⟨_, rfl, (sums_iff_of_empty h hdoc hempty).mpr hsum⟩

/-- A call whose first loop ends early is not right. -/
theorem not_right_of_bad {m : ℕ} {s' : SelectState} (h : Upto fds sets m s')
    (hin : ∃ w, In sets m w) (e : Option FdErrno) :
    ¬Right fds nfds sets res ⟨-1, e, s'.out⟩ := by
  obtain ⟨w, hw⟩ := hin
  refine not_right_of_lost rfl hw fun hout => ?_
  exact Nat.lt_irrefl m ((h.out w m).mp hout).1

/-- What is asked of a regular call, in the order in which the code comes to it. -/
theorem regular_iff : Regular fds nfds sets res ↔ nfds ≤ 31
    ∧ (∀ i, 0 ≤ i → i < 0 + nfds.toNat → Fine fds sets i)
    ∧ (Once fds nfds sets ∧ Alone fds nfds res)
    ∧ ((∃ i w fd, Asked nfds sets i w ∧ Concrete fds i fd) →
        (res = none → ∃ j w', Asked nfds sets j w' ∧ Symbolic fds j)
          ∧ (res ≠ none → ∀ j : ℕ, (j : ℤ) < nfds → Translates fds j)) := by
  constructor
  · intro h
    refine ⟨h.small, fun i _ hi w hin => ?_, ⟨h.once, h.alone⟩, ?_⟩
    · have hasked : Asked nfds sets i w := asked_iff.mpr ⟨by omega, hin⟩
      exact ⟨h.isOpen i w hasked, fun fd => h.defined i w fd hasked⟩
    · rintro ⟨i, w, fd, hasked, hconc⟩
      exact ⟨h.answered i w fd hasked hconc, fun hne j hj fd' =>
        h.shared i w fd hasked hconc hne j fd' hj⟩
  · rintro ⟨hsmall, hfine, ⟨honce, halone⟩, hask⟩
    have hfine' : ∀ i w, Asked nfds sets i w →
        (fds.get_file i).isSome = true ∧ ∀ fd, Concrete fds i fd → Defined fd := by
      intro i w ha
      have hi := (asked_iff.mp ha).1
      exact hfine i (Nat.zero_le i) (by omega) w (asked_iff.mp ha).2
    exact ⟨hsmall, fun i w ha => (hfine' i w ha).1, honce,
      fun i w fd ha => (hfine' i w ha).2 fd,
      fun i w fd ha hc => (hask ⟨i, w, fd, ha, hc⟩).1,
      fun i w fd ha hc hne j fd' hj => (hask ⟨i, w, fd, ha, hc⟩).2 hne j hj fd', halone⟩

/-- The variables before the first loop. -/
theorem select_eq : select fds nfds sets res
    = (scan fds (fun w => (sets w).getD FD_ZERO) (List.range nfds.toNat)
        ⟨fun w => (sets w).map fun _ => FD_ZERO, fun _ => FD_ZERO, 0, 0⟩).bind (fun
          | .bad s => some ⟨-1, some .EBADF, s.out⟩
          | .all s => ask fds nfds res s) := rfl

/-- The macros are not defined for descriptor 31, which the loop comes to unless it ends before. -/
theorem not_meets_of_large (hlarge : ¬nfds ≤ 31) : ¬Meets fds nfds sets res := by
  rintro ⟨a, ha, hright : Right fds nfds sets res a⟩
  have hrange : List.range nfds.toNat
      = List.range' 0 31 ++ (31 :: List.range' 32 (nfds.toNat - 32)) := by
    have hlen : nfds.toNat = 31 + (nfds.toNat - 32 + 1) := by omega
    calc List.range nfds.toNat = List.range' 0 (31 + (nfds.toNat - 32 + 1)) := by
          rw [← hlen, List.range_eq_range']
      _ = List.range' 0 31 ++ List.range' (0 + 31) (nfds.toNat - 32 + 1) :=
          List.range'_append_1.symm
      _ = _ := congrArg (List.range' 0 31 ++ ·) (List.range'_succ ..)
  have hscan := scan_spec (n := 0) 31 (by omega) (upto_zero fds sets)
  rw [select_eq, hrange, scan_append] at ha
  by_cases hfine : ∀ i, 0 ≤ i → i < 0 + 31 → Fine fds sets i
  · obtain ⟨s', hs', -⟩ := hscan.1 hfine
    have hstop : scanOne fds (fun w => (sets w).getD FD_ZERO) 31 s' = none := by
      unfold scanOne
      rw [eachSet_eq_none (w := .read) (FD_ISSET_of_not_defined (by decide) _)]
      rfl
    rw [hs', Option.bind_some] at ha
    simp only [scan_cons, hstop] at ha
    cases ha
  · rcases hscan.2 hfine with hnone | ⟨s', i, hbad, hupto, -, -, hin⟩
    · rw [hnone] at ha
      cases ha
    · rw [hbad] at ha
      obtain rfl := Option.some.inj ha
      exact not_right_of_bad hupto hin _ hright

/-- `select` reports what it was asked and counts it, or leaves the sets alone, exactly when the
call is regular. -/
theorem select_meets_iff (hdoc : Documented fds nfds sets res) :
    Meets fds nfds sets res ↔ Regular fds nfds sets res := by
  rw [regular_iff]
  by_cases hsmall : nfds ≤ 31
  · have hscan := scan_spec (n := 0) nfds.toNat (by omega) (upto_zero fds sets)
    show (∃ a, select fds nfds sets res = some a ∧ Right fds nfds sets res a) ↔ _
    rw [select_eq, List.range_eq_range']
    by_cases hfine : ∀ i, 0 ≤ i → i < 0 + nfds.toNat → Fine fds sets i
    · obtain ⟨s', hs', hupto⟩ := hscan.1 hfine
      rw [Nat.zero_add] at hupto
      rw [hs', Option.bind_some]
      show (∃ a, ask fds nfds res s' = some a ∧ _) ↔ _
      rw [ask_right_iff hsmall hupto hdoc]
      exact ⟨fun hrest => ⟨hsmall, hfine, hrest⟩, fun hrest => hrest.2.2⟩
    · refine iff_of_false ?_ fun hrest => hfine hrest.2.1
      rintro ⟨a, ha, hright⟩
      rcases hscan.2 hfine with hnone | ⟨s', i, hbad, hupto, -, -, hin⟩
      · rw [hnone] at ha
        cases ha
      · rw [hbad] at ha
        obtain rfl := Option.some.inj ha
        exact not_right_of_bad hupto hin _ hright
  · exact iff_of_false (not_meets_of_large hsmall) fun hrest => hsmall hrest.1

/-! ## One symbolic descriptor -/

/-- A table in which descriptor 0 is the symbolic standard input, and the only one. -/
def stdinFds : Fds := fun i =>
  if i.val = 0 then ⟨0, ⟨true, false, true, false⟩, 0, some .sym_stdin⟩ else .zero

/-- The set of descriptor 0. -/
def onlyZero : FdSet := WordSet.empty.insert 0

/-- Nothing is reported by a call that fails. -/
theorem documented_none (sets : SelectSet → Option FdSet) : Documented fds nfds sets none := by
  refine ⟨fun w fd hfd => ?_, fun r os h => ?_⟩
  · exact absurd hfd (by unfold reported FD_ZERO; simp)
  · cases h

/-- Asked for in one set, -/
theorem select_meets_iff_stdin :
    Meets stdinFds 1 (fun w => if w = .read then some onlyZero else none) none := by
  have hzero : ∀ i w, Asked 1 (fun w => if w = .read then some onlyZero else none) i w →
      w = .read := by
    rintro i w ⟨-, h⟩
    dsimp only at h
    by_contra hw
    rw [if_neg hw] at h
    exact absurd h (by unfold FD_ZERO; simp)
  have hconc : ∀ i fd : ℕ, (i : ℤ) < 1 → ¬Concrete stdinFds i fd := by
    rintro i fd hi ⟨f, hf, hd, -⟩
    have hval : f.val = 0 := by
      have := (Fds.get_file_eq_some.mp hf).1
      omega
    unfold stdinFds at hd
    rw [if_pos hval] at hd
    cases hd
  refine (select_meets_iff (documented_none _)).mpr ⟨by decide, fun i w h => ?_,
    fun i w w' _ h h' => ?_, fun i w fd h hc => absurd hc (hconc i fd h.1),
    fun i w fd h hc => absurd hc (hconc i fd h.1), fun i w fd h hc => absurd hc (hconc i fd h.1),
    fun w fd h => ?_⟩
  · have hi := h.1
    obtain rfl : i = 0 := by omega
    rfl
  · rw [hzero i w h, hzero i w' h']
  · exact absurd h (by unfold reported FD_ZERO; simp)

/-- and in two: it is counted once. -/
theorem not_select_meets_stdin :
    Documented stdinFds 1 (fun w => if w = .except then none else some onlyZero) none
      ∧ ¬Meets stdinFds 1 (fun w => if w = .except then none else some onlyZero) none := by
  refine ⟨documented_none _, ?_⟩
  rintro ⟨a, ha, -, hright⟩
  have hvalue : (select stdinFds 1 (fun w => if w = .except then none else some onlyZero) none).map
      (·.value) = some 1 := rfl
  have hread : (select stdinFds 1 (fun w => if w = .except then none else some onlyZero) none).map
      (fun a => ((a.out .read).getD FD_ZERO).has 0) = some true := rfl
  have hwrite : (select stdinFds 1 (fun w => if w = .except then none else some onlyZero) none).map
      (fun a => ((a.out .write).getD FD_ZERO).has 0) = some true := rfl
  rw [ha] at hvalue hread hwrite
  have hval : a.value = 1 := Option.some.inj hvalue
  have hcount := (hright (by rw [hval]; decide)).2
  have hmem : ({(.read, 0), (.write, 0)} : Finset (SelectSet × ℕ)) ⊆ bits a.out := by
    intro x hx
    rcases Finset.mem_insert.mp hx with rfl | hx
    · exact mem_bits.mpr (Option.some.inj hread)
    · obtain rfl := Finset.mem_singleton.mp hx
      exact mem_bits.mpr (Option.some.inj hwrite)
  have hcard : 2 ≤ (bits a.out).card := Finset.card_le_card hmem
  omega

end Xklee.Select
