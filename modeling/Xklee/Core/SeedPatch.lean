/-
What patching leaves behind: `SeedInfo::patchSeed` in `lib/Core/SeedInfo.cpp`.

Patching goes byte by byte. A copy of the constraints, to which the condition has been added,
collects what has been decided: for every byte that has been looked at, that it is the byte of the
seed. `Patched` says so, and that the copy still has a solution. A byte is changed only when no
solution of the copy has it, and then the new byte is that of a solution, so that one round keeps
the invariant.

Bytes that the condition reads directly come first. If the condition is possible then, patching
stops, and nothing is said about bytes that the constraints connect with those: the seed may then
violate a constraint that it satisfied before. Possible is what the condition is when it has been
evaluated, and bytes read at an index that is free stay unknown there. Otherwise all bytes follow,
and what is left agrees with a solution of the constraints and the condition.

Arrays that neither the condition nor a constraint connected with it reads are left alone. There the
bytes of the seed go with every solution for the other arrays, since the seed satisfied the
constraints.
-/
import Xklee.Core.SeedInfo
import Xklee.Data.Partial
import Xklee.Expr.Reads
import Xklee.Solver.ExactSolver

set_option autoImplicit false

namespace Xklee

namespace SeedInfo

variable {solver : TimingSolver} {constraints : List Expr} {condition : Expr} {seed seed' : SeedInfo}

/-! ## The two passes -/

/-- The first pass of `patchSeed`, over the bytes that the condition reads directly. -/
def patchDirect (solver : TimingSolver) (constraints : List Expr) (condition : Expr)
    (seed : SeedInfo) : Option (SeedInfo × List Expr) := do
  let tmp ← ConstraintManager.addConstraint constraints condition
  let bound := (directReads condition).filter fun p => (seed.bindings.lookup p.1).isSome
  bound.foldlM (patchByte solver) (seed, tmp)

/-- All bytes of the arrays that are bound, in the order of the second pass. -/
def allBytes (seed : SeedInfo) : List (KArray × ℕ) :=
  seed.bindings.flatMap fun b => (List.range b.1.size).map fun i => (b.1, i)

theorem patchSeed_eq : patchSeed solver constraints condition seed =
    (patchDirect solver constraints condition seed).bind fun s =>
      (solver.mayBeTrue constraints (s.1.evaluate condition)).bind fun res =>
        if res then some s.1
        else (s.1.allBytes.foldlM (patchByte solver) s).bind fun s' =>
          (solver.mayBeTrue constraints (s'.1.evaluate condition)).bind fun res =>
            if res then some s'.1 else none := by
  unfold patchSeed patchDirect
  cases ConstraintManager.addConstraint constraints condition with
  | none => rfl
  | some tmp => rfl

/-! ## Bytes of a seed -/

/-- The same arrays are bound, to as many bytes. -/
def SameShape (seed seed' : SeedInfo) : Prop :=
  seed.bindings.map (fun b => (b.1, b.2.length)) = seed'.bindings.map fun b => (b.1, b.2.length)

/-- Looking up what has been changed without its key. -/
theorem lookup_map_values {β γ : Type} (f : KArray → β → γ) (bindings : List (KArray × β))
    (array : KArray) : (bindings.map fun b => (b.1, f b.1 b.2)).lookup array =
      (bindings.lookup array).map (f array) := by
  induction bindings with
  | nil => rfl
  | cons b bindings ih =>
    rw [List.map_cons, List.lookup_cons, List.lookup_cons, ih]
    cases hkey : array == b.1 with
    | false => rfl
    | true =>
      obtain rfl := beq_iff_eq.mp hkey
      rfl

theorem SameShape.lookup (h : SameShape seed seed') (array : KArray) :
    (seed.bindings.lookup array).map List.length =
      (seed'.bindings.lookup array).map List.length := by
  rw [← lookup_map_values (fun _ => List.length), ← lookup_map_values (fun _ => List.length)]
  exact congrArg (List.lookup array) h

theorem SameShape.fits (h : SameShape seed seed') (hfits : seed'.Fits) : seed.Fits := by
  intro array bytes hbytes
  have hlength := h.lookup array
  rw [hbytes] at hlength
  obtain ⟨bytes', hbytes', hlen⟩ := Option.map_eq_some_iff.mp hlength.symm
  exact hlen ▸ hfits array bytes' hbytes'

variable {array : KArray} {p : KArray × ℕ} {i : ℕ} {σ τ ρ : Env} {done : Set (KArray × ℕ)}

theorem byte_isSome_iff : (seed.byte p.1 p.2).isSome ↔
    ∃ n ∈ (seed.bindings.lookup p.1).map List.length, p.2 < n := by
  unfold byte
  cases seed.bindings.lookup p.1 with
  | none => simp
  | some bytes => simp

theorem SameShape.byte_isSome (h : SameShape seed seed') (p : KArray × ℕ) :
    (seed.byte p.1 p.2).isSome ↔ (seed'.byte p.1 p.2).isSome := by
  rw [byte_isSome_iff, byte_isSome_iff, h.lookup]

/-- The second pass goes over the same bytes before and after. -/
theorem SameShape.allBytes (h : SameShape seed seed') : seed.allBytes = seed'.allBytes := by
  have hkeys : ∀ s : SeedInfo, s.allBytes =
      (s.bindings.map fun b => (b.1, b.2.length)).flatMap fun k =>
        (List.range k.1.size).map fun i => (k.1, i) := by
    intro s
    rw [List.flatMap_map]
    rfl
  rw [hkeys seed, hkeys seed', show seed.bindings.map _ = seed'.bindings.map _ from h]

theorem setByte_eq (array : KArray) (i : ℕ) (value : BitVec 8) : (seed.setByte array i value).bindings =
    seed.bindings.map fun b => (b.1, if b.1 = array then b.2.set i value else b.2) := by
  unfold setByte
  apply List.map_congr_left
  intro b _
  split
  · rfl
  · rfl

theorem lookup_setByte (array : KArray) (i : ℕ) (value : BitVec 8) (a : KArray) :
    (seed.setByte array i value).bindings.lookup a =
      (seed.bindings.lookup a).map fun bytes => if a = array then bytes.set i value else bytes := by
  rw [setByte_eq]
  exact lookup_map_values
    (fun (a : KArray) (bytes : List (BitVec 8)) => if a = array then bytes.set i value else bytes)
    seed.bindings a

theorem setByte_sameShape (array : KArray) (i : ℕ) (value : BitVec 8) :
    SameShape (seed.setByte array i value) seed := by
  unfold SameShape
  rw [setByte_eq, List.map_map]
  apply List.map_congr_left
  intro b _
  show (b.1, (if b.1 = array then b.2.set i value else b.2).length) = (b.1, b.2.length)
  split
  · rw [List.length_set]
  · rfl

/-- The byte that is set. -/
theorem byte_setByte_self {current : BitVec 8} (value : BitVec 8)
    (h : seed.byte array i = some current) :
    (seed.setByte array i value).byte array i = some value := by
  obtain ⟨bytes, hbytes, hi⟩ := Option.bind_eq_some_iff.mp h
  unfold byte
  rw [lookup_setByte, hbytes]
  show (if array = array then bytes.set i value else bytes)[i]? = some value
  rw [if_pos rfl, List.getElem?_set_self (List.getElem?_eq_some_iff.mp hi).1]

/-- The other bytes. -/
theorem byte_setByte_ne (value : BitVec 8) (hp : p ≠ (array, i)) :
    (seed.setByte array i value).byte p.1 p.2 = seed.byte p.1 p.2 := by
  unfold byte
  rw [lookup_setByte]
  cases seed.bindings.lookup p.1 with
  | none => rfl
  | some bytes =>
    show (if p.1 = array then bytes.set i value else bytes)[p.2]? = bytes[p.2]?
    split
    next harray =>
      apply List.getElem?_set_ne
      rintro rfl
      exact hp (Prod.ext harray rfl)
    next => rfl

/-- A seed that has the bytes of an assignment adds nothing to it. -/
theorem extend_eq_self (h : ∀ array i b, seed.byte array i = some b → b = σ array i) :
    seed.extend σ = σ := by
  funext array i
  unfold extend
  cases hb : seed.byte array i with
  | none => rfl
  | some b => exact h array i b hb

/-! ## What a byte says -/

section Byte

variable {array : KArray} {i : ℕ} (hsym : array.isSymbolicArray = true) (hi : i < array.size)
  (hsize : array.size < 2 ^ 32)

include hsym hi hsize

/-- The read that patching builds for a byte. -/
theorem read_denotes (σ : Env) : Denotes σ
    (ReadExpr.create (.root array) (ConstantExpr.alloc i KArray.domain)) (σ array i) := by
  have hindex := denotes_alloc (σ := σ) (v := i) (show 0 < 32 by decide)
  have hread : Denotes σ (ReadExpr.create (.root array) (ConstantExpr.alloc i KArray.domain))
      ((UpdateList.root array).read σ (BitVec.ofNat 32 i).toNat) :=
    ReadExpr.create_denotes trivial hindex
  have hlt : i < 2 ^ 32 := Nat.lt_trans hi hsize
  have hinit : (UpdateList.root array).read σ (BitVec.ofNat 32 i).toNat = σ array i := by
    rw [BitVec.toNat_ofNat, Nat.mod_eq_of_lt hlt]
    show array.initial σ i = σ array i
    have hconst : ¬array.isConstantArray = true := by simp [KArray.isConstantArray, hsym]
    rw [KArray.initial, if_neg hconst, if_pos hi]
  rwa [hinit] at hread

/-- The equality that patching adds says what the byte is. -/
theorem isSeed_isBool (b : BitVec 8) : (EqExpr.create
    (ReadExpr.create (.root array) (ConstantExpr.alloc i KArray.domain))
    (.Constant ⟨KArray.range, b⟩)).IsBool := by
  have h := EqExpr.create_denotes (read_denotes hsym hi hsize fun _ _ => 0)
    (denotes_const (by decide) b)
  exact ⟨h.1, h.width_eq⟩

theorem isSeed_holds (b : BitVec 8) (σ : Env) : (EqExpr.create
    (ReadExpr.create (.root array) (ConstantExpr.alloc i KArray.domain))
    (.Constant ⟨KArray.range, b⟩)).Holds σ ↔ σ array i = b := by
  have h := EqExpr.create_denotes (read_denotes hsym hi hsize σ) (denotes_const (by decide) b)
  rw [h.holds_iff, beq_iff_eq]

end Byte

/-! ## What is connected with the condition -/

/-- The array is read somewhere in the expression. -/
def ReadsArray (e : Expr) (array : KArray) : Prop := ∃ ul i, .Read ul i ∈ e.deep ∧ ul.array = array

/-- The arrays that the condition reads, and with every constraint that reads one of them the
other arrays that it reads. -/
inductive Connected (constraints : List Expr) (condition : Expr) : KArray → Prop
  | condition {array : KArray} : ReadsArray condition array → Connected constraints condition array
  | constraint {c : Expr} {array array' : KArray} : c ∈ constraints → ReadsArray c array →
      Connected constraints condition array → ReadsArray c array' →
      Connected constraints condition array'

/-- The value of an expression depends on the arrays that it reads. -/
theorem holds_congr {e : Expr} (h : ∀ array, ReadsArray e array → σ array = τ array) :
    e.Holds σ ↔ e.Holds τ := by
  have heval : e.eval σ = e.eval τ := by
    apply Expr.eval_congr
    intro ul i hmem n _
    unfold KArray.initial
    rw [h ul.array ⟨ul, i, hmem, rfl⟩]
  unfold Expr.Holds
  rw [heval]

open Classical in
/-- One assignment for the arrays connected with the condition, another one for the others. -/
noncomputable def splice (constraints : List Expr) (condition : Expr) (τ ρ : Env) : Env :=
  fun array => if Connected constraints condition array then τ array else ρ array

theorem splice_of_connected (h : Connected constraints condition array) :
    splice constraints condition τ ρ array = τ array := if_pos h

theorem splice_of_not_connected (h : ¬Connected constraints condition array) :
    splice constraints condition τ ρ array = ρ array := if_neg h

/-- No constraint reads arrays of both kinds, so that two solutions can be put together. -/
theorem satisfies_splice (hτ : Satisfies τ constraints) (hρ : Satisfies ρ constraints) :
    Satisfies (splice constraints condition τ ρ) constraints := by
  intro c hc
  by_cases hread : ∃ array, ReadsArray c array ∧ Connected constraints condition array
  · obtain ⟨array, harray, hconnected⟩ := hread
    refine (holds_congr fun array' harray' => ?_).mpr (hτ c hc)
    exact splice_of_connected (.constraint hc harray hconnected harray')
  · refine (holds_congr fun array harray => ?_).mpr (hρ c hc)
    exact splice_of_not_connected fun hconnected => hread ⟨array, harray, hconnected⟩

theorem holds_splice (hτ : condition.Holds τ) :
    condition.Holds (splice constraints condition τ ρ) :=
  (holds_congr fun _ harray => splice_of_connected (.condition harray)).mpr hτ

/-! ## The invariant -/

/-- What the executor sees to before a seed is patched: a solver that answers, a condition that is
consistent with the constraints, and a seed that satisfies them and binds no more bytes than there
are. Sizes are `unsigned`, and only arrays that have been made symbolic are bound. -/
structure Patchable (solver : TimingSolver) (constraints : List Expr) (condition : Expr)
    (seed : SeedInfo) : Prop where
  correct : solver.solver.Correct
  answers : solver.solver.Answers
  isBool : ∀ c ∈ constraints, c.IsBool
  condition_isBool : condition.IsBool
  consistent : ∃ σ, Satisfies σ constraints ∧ condition.Holds σ
  satisfied : ∃ σ, Satisfies (seed.extend σ) constraints
  fits : seed.Fits
  bound : ∀ array, (seed.bindings.lookup array).isSome →
    array.isSymbolicArray = true ∧ array.size < 2 ^ 32

/-- The bytes in `done` have been looked at: the copy of the constraints says what they are. The
others are as they were, and so are those of arrays that are not connected with the condition. -/
structure Patched (constraints : List Expr) (condition : Expr) (seed : SeedInfo)
    (done : Set (KArray × ℕ)) (s : SeedInfo × List Expr) : Prop where
  shape : SameShape s.1 seed
  isBool : ∀ c ∈ s.2, c.IsBool
  consistent : ∃ σ, Satisfies σ s.2
  solutions : ∀ σ, Satisfies σ s.2 ↔ Satisfies σ constraints ∧ condition.Holds σ
    ∧ ∀ p ∈ done, s.1.byte p.1 p.2 = some (σ p.1 p.2)
  kept : ∀ p, p ∉ done ∨ ¬Connected constraints condition p.1 →
    s.1.byte p.1 p.2 = seed.byte p.1 p.2

section Run

variable {done : Set (KArray × ℕ)} {s s' : SeedInfo × List Expr} {p : KArray × ℕ}

/-- The bytes of an array that is not connected with the condition go with a solution. -/
theorem Patched.exists_solution_keeping (h : Patched constraints condition seed done s)
    (hsat : ∃ σ, Satisfies (seed.extend σ) constraints) {current : BitVec 8}
    (hp : ¬Connected constraints condition p.1) (hbyte : s.1.byte p.1 p.2 = some current) :
    ∃ σ, Satisfies σ s.2 ∧ σ p.1 p.2 = current := by
  obtain ⟨τ, hτ⟩ := h.consistent
  obtain ⟨hconstraints, hcondition, hdone⟩ := (h.solutions τ).mp hτ
  obtain ⟨ρ, hρ⟩ := hsat
  -- outside the connected arrays the bytes are still those of the seed
  have hseed : ∀ q : KArray × ℕ, ¬Connected constraints condition q.1 → ∀ b,
      s.1.byte q.1 q.2 = some b →
      splice constraints condition τ (seed.extend ρ) q.1 q.2 = b := by
    intro q hq b hb
    rw [splice_of_not_connected hq]
    rw [h.kept q (.inr hq)] at hb
    unfold extend
    rw [hb]
    rfl
  refine ⟨splice constraints condition τ (seed.extend ρ), ?_, hseed p hp current hbyte⟩
  refine (h.solutions _).mpr ⟨satisfies_splice hconstraints hρ, holds_splice hcondition, ?_⟩
  intro q hq
  by_cases hconnected : Connected constraints condition q.1
  · rw [splice_of_connected hconnected]
    exact hdone q hq
  · rw [hseed q hconnected _ (hdone q hq)]
    exact hdone q hq

/-- Adding what some solution says returns, and the list says that as well. -/
theorem exists_addConstraint {tmp : List Expr} {e : Expr} (htmp : ∀ c ∈ tmp, c.IsBool)
    (he : e.IsBool) (hsat : ∃ σ, Satisfies σ tmp ∧ e.Holds σ) :
    ∃ r, ConstraintManager.addConstraint tmp e = some r ∧ (∀ c ∈ r, c.IsBool)
      ∧ ∀ σ, Satisfies σ r ↔ Satisfies σ tmp ∧ e.Holds σ := by
  have hadd := ConstraintManager.addConstraint_represents htmp he
  cases h : ConstraintManager.addConstraint tmp e with
  | none =>
    rw [h] at hadd
    obtain ⟨σ, hσ⟩ := hsat
    exact absurd hσ (hadd σ trivial)
  | some r =>
    rw [h] at hadd
    exact ⟨r, rfl, hadd.1, fun σ => hadd.2 σ trivial⟩

/-- The equality with byte `b` has been added, and `b` is in the seed. -/
theorem Patched.add (h : Patched constraints condition seed done s) {seed' : SeedInfo}
    {r : List Expr} {b : BitVec 8} (hshape : SameShape seed' s.1) (hr : ∀ c ∈ r, c.IsBool)
    (hsat : ∃ σ, Satisfies σ r)
    (hiff : ∀ σ, Satisfies σ r ↔ Satisfies σ s.2 ∧ σ p.1 p.2 = b)
    (hself : seed'.byte p.1 p.2 = some b)
    (hothers : ∀ q ≠ p, seed'.byte q.1 q.2 = s.1.byte q.1 q.2)
    (hp : s.1.byte p.1 p.2 ≠ some b → p ∉ done ∧ Connected constraints condition p.1) :
    Patched constraints condition seed (insert p done) (seed', r) where
  shape := Eq.trans hshape h.shape
  isBool := hr
  consistent := hsat
  solutions := by
    intro σ
    have hdone : (∀ q ∈ done, s.1.byte q.1 q.2 = some (σ q.1 q.2)) ∧ σ p.1 p.2 = b ↔
        ∀ q ∈ insert p done, seed'.byte q.1 q.2 = some (σ q.1 q.2) := by
      constructor
      · rintro ⟨hdone, hσ⟩ q hq
        by_cases hqp : q = p
        · rw [hqp, hself, hσ]
        · rw [hothers q hqp]
          exact hdone q (hq.resolve_left hqp)
      · intro hall
        have hσ : σ p.1 p.2 = b := by
          have := hall p (Set.mem_insert p done)
          rw [hself] at this
          exact (Option.some.inj this).symm
        refine ⟨fun q hq => ?_, hσ⟩
        by_cases hqp : q = p
        · subst hqp
          by_contra hne
          rw [hσ] at hne
          exact (hp hne).1 hq
        · rw [← hothers q hqp]
          exact hall q (Set.mem_insert_of_mem p hq)
    rw [hiff, h.solutions, and_assoc, and_assoc, hdone]
  kept := by
    intro q hq
    by_cases hqp : q = p
    · subst hqp
      -- only a connected byte that has not been looked at is changed
      have hsame : s.1.byte q.1 q.2 = some b := by
        by_contra hne
        rcases hq with hq | hq
        · exact hq (Set.mem_insert q done)
        · exact hq (hp hne).2
      have hkept : q ∉ done ∨ ¬Connected constraints condition q.1 :=
        hq.imp_left fun hq hdone => hq (Set.mem_insert_of_mem q hdone)
      rw [hself, ← hsame]
      exact h.kept q hkept
    · rw [hothers q hqp]
      exact h.kept q (hq.imp_left fun hq hdone => hq (Set.mem_insert_of_mem p hdone))

/-- One round. A byte that some solution has is kept; otherwise the byte of a solution takes its
place. -/
theorem Patched.step (hpatch : Patchable solver constraints condition seed)
    (h : Patched constraints condition seed done s) (hbyte : (s.1.byte p.1 p.2).isSome) :
    ∃ s', patchByte solver s p = some s' ∧
      Patched constraints condition seed (insert p done) s' := by
  obtain ⟨current, hcurrent⟩ := Option.isSome_iff_exists.mp hbyte
  have hreliable : solver.Reliable s.2 :=
    ⟨⟨hpatch.correct, h.consistent, h.isBool⟩, hpatch.answers⟩
  have hi : p.2 < p.1.size := lt_size_of_byte (h.shape.fits hpatch.fits) hcurrent
  obtain ⟨hsym, hsize⟩ : p.1.isSymbolicArray = true ∧ p.1.size < 2 ^ 32 := by
    apply hpatch.bound
    obtain ⟨n, hn, -⟩ := byte_isSome_iff.mp ((h.shape.byte_isSome p).mp hbyte)
    obtain ⟨bytes, hbytes, -⟩ := Option.map_eq_some_iff.mp hn
    exact Option.isSome_iff_exists.mpr ⟨bytes, hbytes⟩
  have hread := read_denotes hsym hi hsize
  have hbool := isSeed_isBool hsym hi hsize
  have hholds := isSeed_holds hsym hi hsize
  obtain ⟨res, hres, hmust⟩ := hreliable.mustBeTrue (hbool current).createIsZero
  unfold SeedInfo.patchByte
  dsimp only
  rw [Partial.bind_of_eq hcurrent,
    Partial.bind_of_eq (show solver.mustBeFalse s.2 _ = some res from hres)]
  cases res with
  | true =>
    -- no solution has the byte
    have hnone : ∀ σ, Satisfies σ s.2 → σ p.1 p.2 ≠ current := by
      intro σ hσ
      have := hmust.mp rfl σ hσ
      rw [(hbool current).holds_createIsZero] at this
      rwa [hholds] at this
    obtain ⟨value, τ, hvalue, hτ, heval⟩ := hreliable.getValue (hread fun _ _ => 0).1
    have hbits : (value.zextOrTrunc KArray.range).bits = τ p.1 p.2 := by
      rw [heval, (hread τ).2]
      exact BitVec.setWidth_eq _
    obtain ⟨r, hadd, hr, hiff⟩ := exists_addConstraint h.isBool (hbool (τ p.1 p.2))
      ⟨τ, hτ, (hholds _ τ).mpr rfl⟩
    rw [if_pos rfl, Partial.bind_of_eq hvalue, hbits, Partial.bind_of_eq hadd]
    refine ⟨_, rfl, h.add (setByte_sameShape _ _ _) hr ⟨τ, (hiff τ).mpr ⟨hτ, (hholds _ τ).mpr rfl⟩⟩
      (fun σ => (hiff σ).trans (and_congr_right fun _ => hholds _ σ))
      (byte_setByte_self _ hcurrent) (fun q hq => byte_setByte_ne _ hq) ?_⟩
    intro _
    constructor
    · intro hdone
      have := ((h.solutions τ).mp hτ).2.2 p hdone
      rw [hcurrent] at this
      exact hnone τ hτ (Option.some.inj this).symm
    · by_contra hconnected
      obtain ⟨σ, hσ, hsame⟩ := h.exists_solution_keeping hpatch.satisfied hconnected hcurrent
      exact hnone σ hσ hsame
  | false =>
    obtain ⟨τ, hτ, hcur⟩ : ∃ σ, Satisfies σ s.2 ∧ σ p.1 p.2 = current := by
      by_contra hnone
      apply Bool.false_ne_true
      apply hmust.mpr
      intro σ hσ
      rw [(hbool current).holds_createIsZero, hholds]
      exact fun hσp => hnone ⟨σ, hσ, hσp⟩
    obtain ⟨r, hadd, hr, hiff⟩ := exists_addConstraint h.isBool (hbool current)
      ⟨τ, hτ, (hholds _ τ).mpr hcur⟩
    rw [if_neg Bool.false_ne_true, Partial.bind_of_eq hadd]
    exact ⟨_, rfl, h.add rfl hr ⟨τ, (hiff τ).mpr ⟨hτ, (hholds _ τ).mpr hcur⟩⟩
      (fun σ => (hiff σ).trans (and_congr_right fun _ => hholds _ σ)) hcurrent
      (fun _ _ => rfl) fun hne => absurd hcurrent hne⟩

/-- A pass over some bytes, if it comes through. It does when all of them are bound. -/
theorem Patched.run (hpatch : Patchable solver constraints condition seed)
    (h : Patched constraints condition seed done s) (ps : List (KArray × ℕ)) :
    (∀ s', ps.foldlM (patchByte solver) s = some s' →
      Patched constraints condition seed (done ∪ {p | p ∈ ps}) s')
    ∧ ((∀ p ∈ ps, (seed.byte p.1 p.2).isSome) → ∃ s', ps.foldlM (patchByte solver) s = some s') := by
  induction ps generalizing done s with
  | nil =>
    constructor
    · intro s' hs'
      obtain rfl := Option.some.inj hs'
      have hdone : done ∪ {p | p ∈ ([] : List (KArray × ℕ))} = done := by simp
      rwa [hdone]
    · exact fun _ => ⟨s, rfl⟩
  | cons p ps ih =>
    have hset : insert p done ∪ {q | q ∈ ps} = done ∪ {q | q ∈ p :: ps} := by
      ext q
      simp only [Set.mem_union, Set.mem_insert_iff, Set.mem_ofPred_eq, List.mem_cons]
      tauto
    rw [List.foldlM_cons]
    constructor
    · intro s' hs'
      obtain ⟨s₁, hstep, hrest⟩ := Option.bind_eq_some_iff.mp hs'
      -- a round that comes through has found its byte
      have hbyte : (s.1.byte p.1 p.2).isSome := by
        obtain ⟨current, hcurrent, -⟩ := Option.bind_eq_some_iff.mp hstep
        exact Option.isSome_iff_exists.mpr ⟨current, hcurrent⟩
      obtain ⟨s₂, hstep', hs₂⟩ := h.step hpatch hbyte
      obtain rfl := Option.some.inj (hstep.symm.trans hstep')
      rw [← hset]
      exact (ih hs₂).1 s' hrest
    · intro hbytes
      obtain ⟨hp, hps⟩ := List.forall_mem_cons.mp hbytes
      obtain ⟨s₁, hstep, hs₁⟩ := h.step hpatch ((h.shape.byte_isSome p).mpr hp)
      obtain ⟨s', hrest⟩ := (ih hs₁).2 hps
      exact ⟨s', by rw [hstep]; exact hrest⟩

/-- Nothing has been looked at before the first pass. -/
theorem Patchable.start (hpatch : Patchable solver constraints condition seed) :
    ∃ tmp, ConstraintManager.addConstraint constraints condition = some tmp
      ∧ Patched constraints condition seed ∅ (seed, tmp) := by
  obtain ⟨tmp, hadd, htmp, hiff⟩ :=
    exists_addConstraint hpatch.isBool hpatch.condition_isBool hpatch.consistent
  refine ⟨tmp, hadd, rfl, htmp, ?_, ?_, fun _ _ => rfl⟩
  · obtain ⟨σ, hσ⟩ := hpatch.consistent
    exact ⟨σ, (hiff σ).mpr hσ⟩
  · intro σ
    rw [hiff]
    simp

/-- The bytes of the first pass: those that the condition reads directly and that may be bound. -/
def direct (condition : Expr) (seed : SeedInfo) : Set (KArray × ℕ) :=
  {p | p ∈ (directReads condition).filter fun p => (seed.bindings.lookup p.1).isSome}

theorem Patchable.patchDirect (hpatch : Patchable solver constraints condition seed) :
    (∀ s, patchDirect solver constraints condition seed = some s →
      Patched constraints condition seed (direct condition seed) s)
    ∧ ((∀ p ∈ direct condition seed, (seed.byte p.1 p.2).isSome) →
      ∃ s, patchDirect solver constraints condition seed = some s) := by
  obtain ⟨tmp, hadd, hstart⟩ := hpatch.start
  have hrun := hstart.run hpatch
    ((directReads condition).filter fun p => (seed.bindings.lookup p.1).isSome)
  rw [Set.empty_union] at hrun
  unfold SeedInfo.patchDirect
  rw [Partial.bind_of_eq hadd]
  exact hrun

/-! ## After patching -/

/-- An assignment with the bytes of the seed satisfies what the evaluated condition says. -/
theorem holds_evaluate (hfits : seed.Fits) (hcondition : condition.IsBool) (σ : Env) :
    (seed.evaluate condition).Holds (seed.extend σ) ↔ condition.Holds (seed.extend σ) := by
  have hvalue := ExprEvaluator.visit_hasValue (initialSound hfits σ) condition hcondition.1
  unfold Expr.Holds evaluate
  rw [hvalue.2]

/-- After a pass over all bytes the seed has the bytes of a solution. -/
theorem Patched.satisfied (h : Patched constraints condition seed done s)
    (hfits : seed.Fits) (hall : ∀ p ∈ s.1.allBytes, p ∈ done) :
    ∃ σ, s.1.extend σ = σ ∧ Satisfies σ constraints ∧ condition.Holds σ := by
  obtain ⟨σ, hσ⟩ := h.consistent
  obtain ⟨hconstraints, hcondition, hdone⟩ := (h.solutions σ).mp hσ
  refine ⟨σ, extend_eq_self ?_, hconstraints, hcondition⟩
  intro array i b hb
  have hmem : (array, i) ∈ s.1.allBytes := by
    obtain ⟨bytes, hbytes, -⟩ := Option.bind_eq_some_iff.mp hb
    have hi := lt_size_of_byte (h.shape.fits hfits) hb
    refine List.mem_flatMap.mpr ⟨(array, bytes), ?_, ?_⟩
    · obtain ⟨l₁, l₂, hl, -⟩ := List.lookup_eq_some_iff.mp hbytes
      rw [hl]
      exact List.mem_append_right l₁ List.mem_cons_self
    · exact List.mem_map.mpr ⟨i, List.mem_range.mpr hi, rfl⟩
  have hbyte := hdone (array, i) (hall _ hmem)
  exact Option.some.inj (hb.symm.trans hbyte)

/-- When the second pass runs, what it leaves is a seed that is possible. -/
theorem Patched.secondPass (hpatch : Patchable solver constraints condition seed)
    (h : Patched constraints condition seed done s) (hs' : s.1.allBytes.foldlM (patchByte solver) s = some s') :
    Patched constraints condition seed (done ∪ {p | p ∈ s.1.allBytes}) s'
      ∧ ∃ σ, s'.1.extend σ = σ ∧ Satisfies σ constraints ∧ condition.Holds σ := by
  have hrun := (h.run hpatch s.1.allBytes).1 s' hs'
  refine ⟨hrun, hrun.satisfied hpatch.fits ?_⟩
  intro p hp
  rw [SameShape.allBytes (hrun.shape.trans h.shape.symm)] at hp
  exact .inr hp

/-- Every byte of the second pass is bound, when the bindings have the sizes of their arrays. -/
theorem allBytes_isSome (hfull : ∀ array bytes, seed.bindings.lookup array = some bytes →
    bytes.length = array.size) : ∀ p ∈ seed.allBytes, (seed.byte p.1 p.2).isSome := by
  intro p hp
  obtain ⟨b, hb, hmem⟩ := List.mem_flatMap.mp hp
  obtain ⟨i, hi, rfl⟩ := List.mem_map.mp hmem
  obtain ⟨bytes, hbytes⟩ : ∃ bytes, seed.bindings.lookup b.1 = some bytes := by
    apply Option.isSome_iff_exists.mp
    exact List.lookup_isSome_iff.mpr ⟨b, hb, beq_self_eq_true b.1⟩
  apply byte_isSome_iff.mpr
  rw [hbytes]
  exact ⟨bytes.length, rfl, hfull b.1 bytes hbytes ▸ List.mem_range.mp hi⟩

end Run

/-- The condition may be true of the patched seed, and the bytes that were patched are those of a
solution. -/
structure Repaired (constraints : List Expr) (condition : Expr) (seed : SeedInfo)
    (done : Set (KArray × ℕ)) (seed' : SeedInfo) : Prop where
  possible : ∃ σ, Satisfies σ constraints ∧ (seed'.evaluate condition).Holds σ
  /-- A condition that comes out as a constant is satisfied. -/
  satisfied : ∀ c, seed'.evaluate condition = .Constant c → ∀ σ, condition.Holds (seed'.extend σ)
  /-- The bytes in `done` are those of a solution of the constraints and the condition. -/
  agrees : ∃ σ, Satisfies σ constraints ∧ condition.Holds σ
    ∧ ∀ p ∈ done, seed'.byte p.1 p.2 = some (σ p.1 p.2)
  kept : ∀ array, ¬Connected constraints condition array →
    ∀ i, seed'.byte array i = seed.byte array i
  shape : SameShape seed' seed

theorem Repaired.mono {done' : Set (KArray × ℕ)}
    (h : Repaired constraints condition seed done' seed') (hsub : done ⊆ done') :
    Repaired constraints condition seed done seed' where
  possible := h.possible
  satisfied := h.satisfied
  agrees := by
    obtain ⟨σ, hconstraints, hcondition, hdone⟩ := h.agrees
    exact ⟨σ, hconstraints, hcondition, fun p hp => hdone p (hsub hp)⟩
  kept := h.kept
  shape := h.shape

theorem Patchable.reliable (hpatch : Patchable solver constraints condition seed) :
    solver.Reliable constraints := by
  obtain ⟨σ, hσ⟩ := hpatch.consistent
  exact ⟨⟨hpatch.correct, ⟨σ, hσ.1⟩, hpatch.isBool⟩, hpatch.answers⟩

theorem Patched.repaired {s : SeedInfo × List Expr}
    (hpatch : Patchable solver constraints condition seed)
    (h : Patched constraints condition seed done s)
    (hmay : solver.mayBeTrue constraints (s.1.evaluate condition) = some true) :
    Repaired constraints condition seed done s.1 := by
  have hfits := h.shape.fits hpatch.fits
  obtain ⟨τ, hτ, hholds⟩ := (hpatch.reliable.toTruthful.mayBeTrue
    (evaluate_isBool hfits hpatch.condition_isBool) hmay).mp rfl
  refine ⟨⟨τ, hτ, hholds⟩, ?_, ?_, fun array harray i => h.kept (array, i) (.inr harray), h.shape⟩
  · intro c hc σ
    rw [← holds_evaluate hfits hpatch.condition_isBool, hc]
    rw [hc] at hholds
    exact hholds
  · obtain ⟨σ, hσ⟩ := h.consistent
    exact ⟨σ, (h.solutions σ).mp hσ⟩

/-- `SeedInfo::patchSeed` makes the condition possible. When it returns, the bytes that the
condition reads directly are those of a solution of the constraints and the condition; and if the
condition was not possible with these bytes alone, all bytes are, so that the patched seed can
satisfy the constraints and the condition. Arrays that are not connected with the condition keep
their bytes. It returns when every binding has the size of its array and the direct reads are in
bounds. -/
theorem patchSeed_repairs (hpatch : Patchable solver constraints condition seed) :
    (∀ seed', patchSeed solver constraints condition seed = some seed' →
      Repaired constraints condition seed (direct condition seed) seed'
      ∧ ∀ s, SeedInfo.patchDirect solver constraints condition seed = some s →
        solver.mayBeTrue constraints (s.1.evaluate condition) = some false →
        ∃ σ, Satisfies (seed'.extend σ) constraints ∧ condition.Holds (seed'.extend σ))
    ∧ ((∀ array bytes, seed.bindings.lookup array = some bytes → bytes.length = array.size) →
      (∀ p ∈ direct condition seed, p.2 < p.1.size) →
      ∃ seed', patchSeed solver constraints condition seed = some seed') := by
  obtain ⟨hdirect, hreturns⟩ := hpatch.patchDirect
  rw [patchSeed_eq]
  constructor
  · intro seed' h
    obtain ⟨s, hs, h⟩ := Option.bind_eq_some_iff.mp h
    obtain ⟨res, hres, h⟩ := Option.bind_eq_some_iff.mp h
    have hpatched := hdirect s hs
    cases res with
    | true =>
      obtain rfl := Option.some.inj h
      refine ⟨hpatched.repaired hpatch hres, ?_⟩
      intro s₁ hs₁ hfalse
      obtain rfl := Option.some.inj (hs.symm.trans hs₁)
      exact absurd (hres.symm.trans hfalse) (by simp)
    | false =>
      obtain ⟨s', hs', h⟩ := Option.bind_eq_some_iff.mp h
      obtain ⟨res', hres', h⟩ := Option.bind_eq_some_iff.mp h
      obtain ⟨hsecond, σ, hσ, hconstraints, hcondition⟩ := hpatched.secondPass hpatch hs'
      cases res' with
      | false => exact absurd h (by simp)
      | true =>
        obtain rfl := Option.some.inj h
        refine ⟨(hsecond.repaired hpatch hres').mono Set.subset_union_left, ?_⟩
        intro _ _ _
        exact ⟨σ, hσ.symm ▸ hconstraints, hσ.symm ▸ hcondition⟩
  · intro hfull hbounds
    obtain ⟨s, hs⟩ := hreturns (by
      intro p hp
      obtain ⟨bytes, hbytes⟩ := Option.isSome_iff_exists.mp (List.mem_filter.mp hp).2
      apply byte_isSome_iff.mpr
      rw [hbytes]
      exact ⟨bytes.length, rfl, hfull p.1 bytes hbytes ▸ hbounds p hp⟩)
    have hpatched := hdirect s hs
    have hfits := hpatched.shape.fits hpatch.fits
    obtain ⟨res, hres, -⟩ :=
      hpatch.reliable.mayBeTrue (evaluate_isBool hfits hpatch.condition_isBool)
    rw [hs, Option.bind_some, hres, Option.bind_some]
    cases res with
    | true => exact ⟨s.1, rfl⟩
    | false =>
      obtain ⟨s', hs'⟩ := (hpatched.run hpatch s.1.allBytes).2 (by
        rw [SameShape.allBytes hpatched.shape]
        exact allBytes_isSome hfull)
      obtain ⟨hsecond, σ, hσ, hconstraints, hcondition⟩ := hpatched.secondPass hpatch hs'
      have hfits' := hsecond.shape.fits hpatch.fits
      obtain ⟨res', hres', hiff⟩ :=
        hpatch.reliable.mayBeTrue (evaluate_isBool hfits' hpatch.condition_isBool)
      -- the assertion holds: the seed has the bytes of a solution
      have htrue : res' = true := by
        apply hiff.mpr
        refine ⟨σ, hconstraints, ?_⟩
        have hevaluate := holds_evaluate hfits' hpatch.condition_isBool σ
        rw [hσ] at hevaluate
        exact hevaluate.mpr hcondition
      rw [if_neg Bool.false_ne_true, hs', Option.bind_some, hres', Option.bind_some, htrue]
      exact ⟨s'.1, rfl⟩

/-! ## A constraint that is lost -/

section TwoBytes

def byteA : KArray := .symbolic 0 "a" 1

def byteB : KArray := .symbolic 1 "b" 1

def firstOf (array : KArray) : Expr := .Read (.root array) (.Constant ⟨32, 0⟩)

/-- The two bytes are equal. -/
def bytesEqual : List Expr := [.Cmp .Eq (firstOf byteA) (firstOf byteB)]

/-- The first one is 5. -/
def aIsFive : Expr := .Cmp .Eq (.Constant ⟨8, 5⟩) (firstOf byteA)

def twoZeros : SeedInfo := ⟨[(byteA, [0]), (byteB, [0])]⟩

theorem directReads_aIsFive : directReads aIsFive = [(byteA, 0)] := by
  have hdirect : directReads aIsFive = [(byteA, 0)].mergeSort fun p q =>
      p.1.id < q.1.id || (p.1.id == q.1.id && p.2 ≤ q.2) := rfl
  rw [hdirect, List.mergeSort_singleton]

/-- Two arrays of one byte are bound. -/
theorem lookup_twoZeros {array : KArray} {bytes : List (BitVec 8)}
    (h : twoZeros.bindings.lookup array = some bytes) :
    (array = byteA ∨ array = byteB) ∧ bytes.length = 1 := by
  obtain ⟨l₁, l₂, hl, -⟩ := List.lookup_eq_some_iff.mp h
  have hmem : (array, bytes) ∈ [(byteA, [(0 : BitVec 8)]), (byteB, [0])] := by
    rw [show [(byteA, [(0 : BitVec 8)]), (byteB, [0])] = l₁ ++ (array, bytes) :: l₂ from hl]
    exact List.mem_append_right l₁ List.mem_cons_self
  rcases List.mem_cons.mp hmem with hab | hmem
  · obtain ⟨rfl, rfl⟩ := Prod.mk.inj hab
    exact ⟨.inl rfl, rfl⟩
  · obtain ⟨rfl, rfl⟩ := Prod.mk.inj (List.mem_singleton.mp hmem)
    exact ⟨.inr rfl, rfl⟩

theorem patchable_twoZeros : Patchable ⟨exactSolver, false⟩ bytesEqual aIsFive twoZeros where
  correct := exactSolver_correct
  answers := exactSolver_answers
  isBool := by decide
  condition_isBool := by decide
  consistent := ⟨fun _ _ => 5, by decide, by decide⟩
  satisfied := ⟨fun _ _ => 0, by decide⟩
  fits := by
    intro array bytes h
    obtain ⟨hmem, hlength⟩ := lookup_twoZeros h
    rcases hmem with rfl | rfl
    · exact hlength.le
    · exact hlength.le
  bound := by
    intro array h
    obtain ⟨bytes, hbytes⟩ := Option.isSome_iff_exists.mp h
    obtain ⟨hmem, -⟩ := lookup_twoZeros hbytes
    rcases hmem with rfl | rfl
    · decide
    · decide

theorem byteA_of_aIsFive {σ : Env} (h : aIsFive.Holds σ) : σ byteA 0 = 5 := by
  have hden : Denotes σ aIsFive (BitVec.ofBool ((5 : BitVec 8) == σ byteA 0)) := ⟨by decide, rfl⟩
  exact (beq_iff_eq.mp (hden.holds_iff.mp h)).symm

theorem direct_twoZeros : direct aIsFive twoZeros = {(byteA, 0)} := by
  ext p
  unfold direct
  rw [directReads_aIsFive]
  exact List.mem_singleton

theorem full_twoZeros (array : KArray) (bytes : List (BitVec 8))
    (h : twoZeros.bindings.lookup array = some bytes) : bytes.length = array.size := by
  obtain ⟨harray, hlength⟩ := lookup_twoZeros h
  rcases harray with rfl | rfl
  · exact hlength
  · exact hlength

theorem bindings_of_sameShape {s : SeedInfo} (h : SameShape s twoZeros) :
    ∃ x y, s = ⟨[(byteA, [x]), (byteB, [y])]⟩ := by
  obtain ⟨bindings⟩ := s
  have hshape : bindings.map (fun b => (b.1, b.2.length)) = [(byteA, 1), (byteB, 1)] := h
  obtain ⟨⟨a, xs⟩, rest, rfl, ha, hrest⟩ := List.map_eq_cons_iff.mp hshape
  obtain ⟨⟨b, ys⟩, rest', rfl, hb, hnil⟩ := List.map_eq_cons_iff.mp hrest
  obtain rfl := List.map_eq_nil_iff.mp hnil
  obtain ⟨rfl, hxs⟩ := Prod.mk.inj ha
  obtain ⟨rfl, hys⟩ := Prod.mk.inj hb
  obtain ⟨x, rfl⟩ := List.length_eq_one_iff.mp hxs
  obtain ⟨y, rfl⟩ := List.length_eq_one_iff.mp hys
  exact ⟨x, y, rfl⟩

/-- The first pass makes the first byte 5, which is all that the condition asks for. -/
theorem patchDirect_twoZeros : ∃ tmp,
    SeedInfo.patchDirect ⟨exactSolver, false⟩ bytesEqual aIsFive twoZeros =
      some (⟨[(byteA, [5]), (byteB, [0])]⟩, tmp) := by
  obtain ⟨hpatched, hreturns⟩ := patchable_twoZeros.patchDirect
  rw [direct_twoZeros] at hpatched hreturns
  obtain ⟨⟨s, tmp⟩, hs⟩ := hreturns (by
    rintro p rfl
    decide)
  have h := hpatched _ hs
  refine ⟨tmp, ?_⟩
  rw [hs]
  -- the bytes of the two arrays
  have ha : s.byte byteA 0 = some 5 := by
    obtain ⟨σ, hσ⟩ := h.consistent
    obtain ⟨-, hcondition, hdone⟩ := (h.solutions σ).mp hσ
    rw [← byteA_of_aIsFive hcondition]
    exact hdone (byteA, 0) rfl
  have hb : s.byte byteB 0 = some 0 := by
    apply h.kept (byteB, 0)
    left
    decide
  obtain ⟨x, y, rfl⟩ := bindings_of_sameShape h.shape
  obtain rfl : x = 5 := Option.some.inj ha
  obtain rfl : y = 0 := Option.some.inj hb
  rfl

/-- Patching stops there, and the seed no longer satisfies the constraint: it has been kept for the
byte that was patched, but nothing has been done about the byte that it is equal to. -/
theorem patchSeed_loses_constraint : ∃ seed',
    Patchable ⟨exactSolver, false⟩ bytesEqual aIsFive twoZeros
      ∧ (∀ σ, Satisfies (twoZeros.extend σ) bytesEqual)
      ∧ patchSeed ⟨exactSolver, false⟩ bytesEqual aIsFive twoZeros = some seed'
      ∧ ∀ σ, ¬Satisfies (seed'.extend σ) bytesEqual := by
  refine ⟨⟨[(byteA, [5]), (byteB, [0])]⟩, patchable_twoZeros, ?_, ?_, ?_⟩
  · intro σ c hc
    obtain rfl := List.mem_singleton.mp hc
    rfl
  · obtain ⟨tmp, hdirect⟩ := patchDirect_twoZeros
    rw [patchSeed_eq, hdirect]
    rfl
  · intro σ h
    have hfalse : (Expr.Cmp .Eq (firstOf byteA) (firstOf byteB)).eval
        (SeedInfo.extend ⟨[(byteA, [5]), (byteB, [0])]⟩ σ) = .ofBool false := rfl
    have := h _ List.mem_cons_self
    unfold Expr.Holds at this
    rw [hfalse] at this
    exact absurd this (by decide)

/-- With its first byte patched the seed has the condition. -/
theorem patchSeed_repairs_twoZeros : ∃ seed',
    patchSeed ⟨exactSolver, false⟩ bytesEqual aIsFive twoZeros = some seed'
      ∧ seed'.byte byteA 0 = some 5 := by
  obtain ⟨hrepairs, hreturns⟩ := patchSeed_repairs patchable_twoZeros
  obtain ⟨seed', hseed'⟩ := hreturns full_twoZeros (by
    rw [direct_twoZeros]
    rintro p rfl
    decide)
  refine ⟨seed', hseed', ?_⟩
  obtain ⟨σ, -, hcondition, hdone⟩ := (hrepairs seed' hseed').1.agrees
  rw [direct_twoZeros] at hdone
  rw [hdone (byteA, 0) rfl, byteA_of_aIsFive hcondition]

end TwoBytes

/-! ## A condition that is only possible -/

section FreeIndex

def byteG : KArray := .symbolic 0 "g" 1

def table : KArray := .symbolic 1 "table" 2

/-- The entry of the table that the byte selects is 5. -/
def entryIsFive : Expr :=
  .Cmp .Eq (.Constant ⟨8, 5⟩) (.Read (.root table) (.Cast .ZExt (firstOf byteG) 32))

/-- The table is bound, the byte is not. -/
def freeIndex : SeedInfo := ⟨[(table, [3, 3])]⟩

theorem directReads_entryIsFive : directReads entryIsFive = [(byteG, 0)] := by
  have hdirect : directReads entryIsFive = [(byteG, 0)].mergeSort fun p q =>
      p.1.id < q.1.id || (p.1.id == q.1.id && p.2 ≤ q.2) := rfl
  rw [hdirect, List.mergeSort_singleton]

theorem lookup_freeIndex {array : KArray} {bytes : List (BitVec 8)}
    (h : freeIndex.bindings.lookup array = some bytes) : array = table ∧ bytes = [3, 3] := by
  obtain ⟨l₁, l₂, hl, -⟩ := List.lookup_eq_some_iff.mp h
  have hmem : (array, bytes) ∈ [(table, [(3 : BitVec 8), 3])] := by
    rw [show [(table, [(3 : BitVec 8), 3])] = l₁ ++ (array, bytes) :: l₂ from hl]
    exact List.mem_append_right l₁ List.mem_cons_self
  exact Prod.mk.inj (List.mem_singleton.mp hmem)

theorem patchable_freeIndex : Patchable ⟨exactSolver, false⟩ [] entryIsFive freeIndex where
  correct := exactSolver_correct
  answers := exactSolver_answers
  isBool := by decide
  condition_isBool := by decide
  consistent := ⟨fun array _ => if array = table then 5 else 0, by decide, by decide⟩
  satisfied := ⟨fun _ _ => 0, by decide⟩
  fits := by
    intro array bytes h
    obtain ⟨rfl, rfl⟩ := lookup_freeIndex h
    decide
  bound := by
    intro array h
    obtain ⟨bytes, hbytes⟩ := Option.isSome_iff_exists.mp h
    obtain ⟨rfl, -⟩ := lookup_freeIndex hbytes
    decide

/-- No entry of the table that is bound is 5. -/
theorem not_holds_entryIsFive (σ : Env) : ¬entryIsFive.Holds (freeIndex.extend σ) := by
  have hentry : ∀ n, table.initial (freeIndex.extend σ) n ≠ 5 := by
    intro n
    match n with
    | 0 | 1 => exact (by decide : (3 : BitVec 8) ≠ 5)
    | n + 2 =>
      have hpast : table.initial (freeIndex.extend σ) (n + 2) = 0 := by
        rw [KArray.initial, if_neg (by decide), if_neg (by simp [table])]
      rw [hpast]
      decide
  intro h
  unfold entryIsFive Expr.Holds at h
  rw [Expr.eval_Cmp, Expr.eval_Constant, Expr.eval_Read, ConstantExpr.compare_mk,
    isTrue_mk_ofBool] at h
  exact hentry _ (beq_iff_eq.mp h).symm

/-- Nothing is patched, since the condition is possible as it is evaluated: the table is read at an
index that is free, and its bytes are not looked at. -/
theorem patchSeed_freeIndex :
    patchSeed ⟨exactSolver, false⟩ [] entryIsFive freeIndex = some freeIndex := by
  obtain ⟨tmp, hadd, -⟩ := patchable_freeIndex.start
  have hdirect : SeedInfo.patchDirect ⟨exactSolver, false⟩ [] entryIsFive freeIndex =
      some (freeIndex, tmp) := by
    unfold SeedInfo.patchDirect
    rw [Partial.bind_of_eq hadd, directReads_entryIsFive]
    rfl
  have hevaluate : freeIndex.evaluate entryIsFive = entryIsFive := rfl
  obtain ⟨res, hres, hiff⟩ := patchable_freeIndex.reliable.mayBeTrue
    patchable_freeIndex.condition_isBool
  have htrue : res = true := hiff.mpr patchable_freeIndex.consistent
  rw [patchSeed_eq, hdirect, Option.bind_some, hevaluate, hres, htrue]
  rfl

end FreeIndex

/-- Patching does not always leave a seed that satisfies the constraints and the condition. A
constraint on the byte that is patched is lost, and a condition on bytes that are read at a free
index stays false. -/
theorem patchSeed_not_satisfied :
    (∃ seed', Patchable ⟨exactSolver, false⟩ bytesEqual aIsFive twoZeros
      ∧ (∀ σ, Satisfies (twoZeros.extend σ) bytesEqual)
      ∧ patchSeed ⟨exactSolver, false⟩ bytesEqual aIsFive twoZeros = some seed'
      ∧ ∀ σ, ¬Satisfies (seed'.extend σ) bytesEqual)
    ∧ ∃ seed', Patchable ⟨exactSolver, false⟩ [] entryIsFive freeIndex
      ∧ patchSeed ⟨exactSolver, false⟩ [] entryIsFive freeIndex = some seed'
      ∧ ∀ σ, ¬entryIsFive.Holds (seed'.extend σ) :=
  ⟨patchSeed_loses_constraint, freeIndex, patchable_freeIndex, patchSeed_freeIndex,
    not_holds_entryIsFive⟩

end SeedInfo

end Xklee
