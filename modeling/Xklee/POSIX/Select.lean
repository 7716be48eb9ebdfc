/-
`select` of `runtime/POSIX/fd.c`.

The three sets of the caller are cleared, rebuilt for the descriptors of symbolic files, and asked
of the operating system for the others under the numbers that it knows them by. What it answers is
an argument of the model. `none` is undefined behaviour: a word outside of the array `fds_bits`, a
null pointer, and a shift `1 << k` whose result is not an `int`.
-/
import Mathlib.Data.Fintype.Defs
import Mathlib.Data.Finset.Prod
import Xklee.Data.WordSet
import Xklee.POSIX.FileTable

set_option autoImplicit false

namespace Xklee

def NFDBITS : ℕ := 64

def FD_SETSIZE : ℕ := 1024

/-- `fd_set`, with the words `fds_bits`. -/
abbrev FdSet := WordSet (FD_SETSIZE / NFDBITS)

namespace FdSet

/-- `1 << k`, a number of type `int` that is converted to a word. -/
def one_shl (k : ℕ) : Option (BitVec 64) := if k ≤ 30 then some (BitVec.twoPow 64 k) else none

/-- `FD_SET`. -/
def FD_SET (n : ℕ) (p : FdSet) : Option FdSet := do
  let bit ← one_shl (n % NFDBITS)
  let fds_bits ← p.word (n / NFDBITS)
  some (p.setWord (n / NFDBITS) (fds_bits ||| bit))

/-- `FD_ISSET`. -/
def FD_ISSET (n : ℕ) (p : FdSet) : Option Bool := do
  let bit ← one_shl (n % NFDBITS)
  let fds_bits ← p.word (n / NFDBITS)
  some (decide (fds_bits &&& bit ≠ 0))

/-- `FD_ZERO`. -/
def FD_ZERO : FdSet := WordSet.empty

/-- The numbers that the macros are defined for. -/
def Defined (n : ℕ) : Prop := n < FD_SETSIZE ∧ n % NFDBITS ≤ 30

instance (n : ℕ) : Decidable (Defined n) := inferInstanceAs (Decidable (_ ∧ _))

end FdSet

/-- The three sets: `read`, `write` and `except`. -/
inductive SelectSet where
  | read | write | except
deriving DecidableEq, Repr

instance : Fintype SelectSet := ⟨{.read, .write, .except}, by rintro (_ | _ | _) <;> decide⟩

/-- One statement for each of the three sets, in this order. -/
def eachSet {α : Type} (f : SelectSet → Option α) : Option (SelectSet → α) := do
  let r ← f .read
  let w ← f .write
  let e ← f .except
  some fun
    | .read => r
    | .write => w
    | .except => e

/-- The variables of the first loop: the sets of the caller, where the pointer is not null, those
for the operating system, `count` and `os_nfds`. -/
structure SelectState where
  out : SelectSet → Option FdSet
  os : SelectSet → FdSet
  count : ℕ
  os_nfds : ℕ

/-- How the first loop goes on: with `return -1`, or with the next descriptor. -/
inductive Scanned where
  | bad (s : SelectState)
  | all (s : SelectState)

/-- What `select` returns, `errno` if it is set, and the sets of the caller. -/
structure SelectResult where
  value : ℤ
  errno : Option FdErrno
  out : SelectSet → Option FdSet

namespace Select

open FdSet

/-- `FD_SET(i, p)` through a pointer of the caller. -/
def FD_SET_ptr (i : ℕ) (p : Option FdSet) : Option (Option FdSet) :=
  match p with
  | none => none
  | some p => (FD_SET i p).map some

/-- `if (FD_ISSET(i, &in_read)) FD_SET(i, read); ...` -/
def setOut (set : SelectSet → Bool) (i : ℕ) (out : SelectSet → Option FdSet) :
    Option (SelectSet → Option FdSet) :=
  eachSet fun w => if set w then FD_SET_ptr i (out w) else some (out w)

/-- `if (FD_ISSET(i, &in_read)) FD_SET(f->fd, &os_read); ...` -/
def setOs (set : SelectSet → Bool) (fd : ℕ) (os : SelectSet → FdSet) :
    Option (SelectSet → FdSet) :=
  eachSet fun w => if set w then FD_SET fd (os w) else some (os w)

/-- The body of the first loop for a descriptor that is in one of the sets. -/
def scanAsked (fds : Fds) (set : SelectSet → Bool) (i : ℕ) (s : SelectState) : Option Scanned :=
  match fds.get_file i with
  | none => some (.bad s)
  | some f =>
      if (fds f).dfile.isSome then
        -- operations on this descriptor never block
        (setOut set i s.out).map fun out => .all { s with out := out, count := s.count + 1 }
      else
        (setOs set (fds f).fd s.os).map fun os =>
          .all { s with
            os := os
            os_nfds := if (fds f).fd ≥ s.os_nfds then (fds f).fd + 1 else s.os_nfds }

/-- The body of the first loop. -/
def scanOne (fds : Fds) (ins : SelectSet → FdSet) (i : ℕ) (s : SelectState) : Option Scanned :=
  (eachSet fun w => FD_ISSET i (ins w)).bind fun set =>
    if set .read || set .write || set .except then scanAsked fds set i s else some (.all s)

/-- The first loop. -/
def scan (fds : Fds) (ins : SelectSet → FdSet) : List ℕ → SelectState → Option Scanned
  | [], s => some (.all s)
  | i :: is, s =>
      (scanOne fds ins i s).bind fun
        | .bad s => some (.bad s)
        | .all s => scan fds ins is s

/-- `if (read && FD_ISSET(f->fd, &os_read)) FD_SET(i, read);` -/
def translateSet (i fd : ℕ) (os : FdSet) (p : Option FdSet) : Option (Option FdSet) :=
  match p with
  | none => some none
  | some p => (FD_ISSET fd os).bind fun b => if b then (FD_SET i p).map some else some (some p)

/-- The body of the second loop. -/
def translateOne (fds : Fds) (os : SelectSet → FdSet) (out : SelectSet → Option FdSet) (i : ℕ) :
    Option (SelectSet → Option FdSet) :=
  match fds.get_file i with
  | none => some out
  | some f =>
      if (fds f).dfile.isSome then some out
      else eachSet fun w => translateSet i (fds f).fd (os w) (out w)

/-- From the call of the operating system on. `res` is what it answers: an error, or a number and
the three sets. -/
def ask (fds : Fds) (nfds : ℤ) (res : Option (ℕ × (SelectSet → FdSet))) (s : SelectState) :
    Option SelectResult :=
  if s.os_nfds > 0 then
    match res with
    | none =>
        if s.count = 0 then some ⟨-1, some .klee_get_errno, s.out⟩ else some ⟨s.count, none, s.out⟩
    | some (r, os) =>
        ((List.range nfds.toNat).foldlM (translateOne fds os) s.out).map fun out =>
          ⟨(s.count + r : ℕ), none, out⟩
  else some ⟨s.count, none, s.out⟩

/-- `select`. The sets are what the three pointers point to. -/
def select (fds : Fds) (nfds : ℤ) (sets : SelectSet → Option FdSet)
    (res : Option (ℕ × (SelectSet → FdSet))) : Option SelectResult :=
  let ins := fun w => (sets w).getD FD_ZERO
  let start : SelectState := ⟨fun w => (sets w).map fun _ => FD_ZERO, fun _ => FD_ZERO, 0, 0⟩
  (scan fds ins (List.range nfds.toNat) start).bind fun
    | .bad s => some ⟨-1, some .EBADF, s.out⟩
    | .all s => ask fds nfds res s

/-! ## What is expected of a call -/

/-- A descriptor below `nfds` that is in one of the sets. -/
def Asked (nfds : ℤ) (sets : SelectSet → Option FdSet) (i : ℕ) (w : SelectSet) : Prop :=
  (i : ℤ) < nfds ∧ ((sets w).getD FD_ZERO).has i = true

/-- A descriptor of a symbolic file. -/
def Symbolic (fds : Fds) (i : ℕ) : Prop :=
  ∃ f, fds.get_file i = some f ∧ (fds f).dfile.isSome = true

/-- A descriptor that the operating system knows as `fd`. -/
def Concrete (fds : Fds) (i fd : ℕ) : Prop :=
  ∃ f, fds.get_file i = some f ∧ (fds f).dfile.isSome = false ∧ (fds f).fd = fd

/-- The bits of three sets. -/
def bits (out : SelectSet → Option FdSet) : Finset (SelectSet × ℕ) :=
  (Finset.univ ×ˢ Finset.range FD_SETSIZE).filter fun x =>
    ((out x.1).getD FD_ZERO).has x.2 = true

/-- What the operating system reports ready. -/
def reported (res : Option (ℕ × (SelectSet → FdSet))) (w : SelectSet) : FdSet :=
  (res.map fun r => r.2 w).getD FD_ZERO

/-- What the operating system promises: it reports only what it is asked, and returns how much it
reports. -/
structure Documented (fds : Fds) (nfds : ℤ) (sets : SelectSet → Option FdSet)
    (res : Option (ℕ × (SelectSet → FdSet))) : Prop where
  asked : ∀ w fd, (reported res w).has fd = true → ∃ i, Asked nfds sets i w ∧ Concrete fds i fd
  count : ∀ r os, res = some (r, os) → r = (bits fun w => some (os w)).card

/-- A call that returns an error leaves the sets as they were. Any other has in a set what was
asked in it and is symbolic or reported ready in it, and returns the number of bits. -/
def Meets (fds : Fds) (nfds : ℤ) (sets : SelectSet → Option FdSet)
    (res : Option (ℕ × (SelectSet → FdSet))) : Prop :=
  ∃ a, select fds nfds sets res = some a
    ∧ (a.value = -1 → a.out = sets)
    ∧ (a.value ≠ -1 →
        (∀ w i, ((a.out w).getD FD_ZERO).has i = true ↔ Asked nfds sets i w
          ∧ (Symbolic fds i ∨ ∃ fd, Concrete fds i fd ∧ (reported res w).has fd = true))
        ∧ a.value = (bits a.out).card)

/-- When a call is right. The descriptors are few, and those that are asked for are open. A
symbolic one is asked for in one set only. The operating system knows the others by numbers that
the macros are defined for, its call does not fail unless there is a symbolic descriptor, and no two
descriptors share a number that it reports. -/
structure Regular (fds : Fds) (nfds : ℤ) (sets : SelectSet → Option FdSet)
    (res : Option (ℕ × (SelectSet → FdSet))) : Prop where
  small : nfds ≤ 31
  isOpen : ∀ i w, Asked nfds sets i w → (fds.get_file i).isSome = true
  once : ∀ i w w', Symbolic fds i → Asked nfds sets i w → Asked nfds sets i w' → w = w'
  defined : ∀ i w fd, Asked nfds sets i w → Concrete fds i fd → Defined fd
  answered : ∀ i w fd, Asked nfds sets i w → Concrete fds i fd → res = none →
    ∃ j w', Asked nfds sets j w' ∧ Symbolic fds j
  shared : ∀ i w fd, Asked nfds sets i w → Concrete fds i fd → res ≠ none →
    ∀ (j : ℕ) fd', (j : ℤ) < nfds → Concrete fds j fd' → Defined fd'
  alone : ∀ w fd, (reported res w).has fd = true →
    ∀ i j : ℕ, (i : ℤ) < nfds → (j : ℤ) < nfds → Concrete fds i fd → Concrete fds j fd → i = j

/-! ## The macros -/

variable {n : ℕ} {α : Type}

theorem word_lt (h : Defined n) : n / NFDBITS < FD_SETSIZE / NFDBITS := by
  have hn : n < FD_SETSIZE := h.1
  unfold FD_SETSIZE NFDBITS at *
  omega

/-- The macros look at one bit of one word, -/
theorem macro_of_defined (h : Defined n) (p : FdSet) (f : BitVec 64 → BitVec 64 → Option α) :
    ((one_shl (n % NFDBITS)).bind fun bit => (p.word (n / NFDBITS)).bind fun w => f bit w)
      = f (BitVec.twoPow 64 (n % NFDBITS)) (p.words ⟨n / NFDBITS, word_lt h⟩) := by
  unfold one_shl WordSet.word
  rw [if_pos h.2, dif_pos (word_lt h)]
  rfl

/-- where there are such a bit and such a word. -/
theorem macro_of_not_defined (h : ¬Defined n) (p : FdSet) (f : BitVec 64 → BitVec 64 → Option α) :
    ((one_shl (n % NFDBITS)).bind fun bit => (p.word (n / NFDBITS)).bind fun w => f bit w)
      = none := by
  unfold one_shl WordSet.word
  by_cases hbit : n % NFDBITS ≤ 30
  · have hn : ¬n < FD_SETSIZE := fun hn => h ⟨hn, hbit⟩
    have hword : ¬n / NFDBITS < FD_SETSIZE / NFDBITS := by
      unfold FD_SETSIZE NFDBITS at *
      omega
    rw [if_pos hbit, dif_neg hword]
    rfl
  · rw [if_neg hbit]
    rfl

theorem FD_ISSET_of_not_defined (h : ¬Defined n) (p : FdSet) : FD_ISSET n p = none :=
  macro_of_not_defined h p fun bit w => some (decide (w &&& bit ≠ 0))

theorem FD_SET_of_not_defined (h : ¬Defined n) (p : FdSet) : FD_SET n p = none :=
  macro_of_not_defined h p fun bit w => some (p.setWord (n / NFDBITS) (w ||| bit))

theorem FD_ISSET_of_defined (h : Defined n) (p : FdSet) :
    FD_ISSET n p = some (p.has n) := by
  refine (macro_of_defined h p fun bit w => some (decide (w &&& bit ≠ 0))).trans ?_
  have hword : n / 64 < FD_SETSIZE / NFDBITS := word_lt h
  unfold WordSet.has
  rw [dif_pos hword, BitVec.and_twoPow]
  show some (decide ((if (p.words ⟨n / 64, hword⟩).getLsbD (n % 64) = true then
    BitVec.twoPow 64 (n % 64) else 0) ≠ 0)) = _
  have hne : BitVec.twoPow 64 (n % 64) ≠ 0 := by
    intro h0
    have hbit := congrArg (fun x => BitVec.getLsbD x (n % 64)) h0
    simp [Nat.mod_lt] at hbit
  cases (p.words ⟨n / 64, hword⟩).getLsbD (n % 64) with
  | false => rfl
  | true => rw [if_pos rfl, decide_eq_true hne]

theorem FD_SET_of_defined (h : Defined n) (p : FdSet) :
    FD_SET n p = some (p.insert n) := by
  refine (macro_of_defined h p fun bit w => some (p.setWord (n / NFDBITS) (w ||| bit))).trans ?_
  refine congrArg some (congrArg WordSet.mk ?_)
  funext i
  by_cases hi : i.val = n / NFDBITS
  · have heq : i = ⟨n / NFDBITS, word_lt h⟩ := Fin.ext hi
    subst heq
    rfl
  · rw [if_neg hi]
    exact (if_neg hi).symm

theorem eachSet_eq_some {f : SelectSet → Option α} {g : SelectSet → α} :
    eachSet f = some g ↔ ∀ w, f w = some (g w) := by
  unfold eachSet
  constructor
  · intro h
    obtain ⟨r, hr, h⟩ := Option.bind_eq_some_iff.mp h
    obtain ⟨w, hw, h⟩ := Option.bind_eq_some_iff.mp h
    obtain ⟨e, he, h⟩ := Option.bind_eq_some_iff.mp h
    obtain rfl := Option.some.inj h
    rintro (_ | _ | _)
    · exact hr
    · exact hw
    · exact he
  · intro h
    rw [h .read, h .write, h .except]
    refine congrArg some ?_
    funext w
    cases w <;> rfl

end Select

end Xklee
