/-
A plain byte memory: values of several bytes in either byte order.

`load` and `store` go byte by byte, least significant byte first; `byteIndex`
says at which place relative to the address a byte of the value lies.
-/
import Mathlib.Data.Nat.Notation
import Mathlib.Logic.Function.Basic

set_option autoImplicit false

/-- A byte for every address. -/
abbrev ByteMemory : Type := ℕ → BitVec 8

namespace ByteMemory

/-- The place of byte `i` of a value of `n` bytes. -/
def byteIndex (littleEndian : Bool) (n i : ℕ) : ℕ := if littleEndian then i else n - i - 1

variable {n i w : ℕ} {addr : ℕ → ℕ}

theorem byteIndex_lt (littleEndian : Bool) (h : i < n) :
    byteIndex littleEndian n i < n := by
  rw [byteIndex]
  split <;> omega

/-- The value of `n` bytes, of which byte `i` is at `addr i`. -/
def load (m : ByteMemory) (addr : ℕ → ℕ) : (n : ℕ) → BitVec (8 * n)
  | 0 => 0#0
  | n + 1 => (m (addr n) ++ load m addr n).cast (by omega)

theorem load_congr (m : ByteMemory) {addr' : ℕ → ℕ} (h : ∀ i < n, addr i = addr' i) :
    load m addr n = load m addr' n := by
  induction n with
  | zero => rfl
  | succ n ih =>
    rw [load, load, h n n.lt_succ_self, ih (fun i hi => h i (Nat.lt_succ_of_lt hi))]

/-- Write byte `i` of the value to `addr i`, for `i` below `n`. -/
def store {w : ℕ} (m : ByteMemory) (addr : ℕ → ℕ) (value : BitVec w) (n : ℕ) : ByteMemory :=
  (List.range n).foldl
    (fun m i => Function.update m (addr i) (value.extractLsb' (8 * i) 8)) m

theorem store_succ (m : ByteMemory) (addr : ℕ → ℕ) (value : BitVec w) (n : ℕ) :
    store m addr value (n + 1)
      = Function.update (store m addr value n) (addr n) (value.extractLsb' (8 * n) 8) := by
  rw [store, List.range_succ, List.foldl_append, store, List.foldl_cons, List.foldl_nil]

/-- A byte that the write does not come to. -/
theorem store_other (m : ByteMemory) (value : BitVec w) (h : ∀ j < n, addr j ≠ i) :
    store m addr value n i = m i := by
  induction n with
  | zero => rfl
  | succ n ih =>
    rw [store_succ, Function.update_of_ne (h n n.lt_succ_self).symm]
    exact ih fun j hj => h j (Nat.lt_succ_of_lt hj)

/-- A byte that the write comes to once. -/
theorem store_at (m : ByteMemory) (value : BitVec w) (hinj : ∀ j < n, addr j = addr i → j = i)
    (hi : i < n) :
    store m addr value n (addr i) = value.extractLsb' (8 * i) 8 := by
  induction n with
  | zero => exact absurd hi (Nat.not_lt_zero i)
  | succ n ih =>
    rw [store_succ]
    by_cases hin : i = n
    · subst hin
      rw [Function.update_self]
    · have hne : addr i ≠ addr n := fun h => hin (hinj n n.lt_succ_self h.symm).symm
      rw [Function.update_of_ne hne]
      exact ih (fun j hj => hinj j (Nat.lt_succ_of_lt hj)) (by omega)

/-- A byte of a value that is read. -/
theorem extract_load (m : ByteMemory) (addr : ℕ → ℕ) (hi : i < n) :
    (load m addr n).extractLsb' (8 * i) 8 = m (addr i) := by
  induction n with
  | zero => exact absurd hi (Nat.not_lt_zero i)
  | succ n ih =>
    apply BitVec.eq_of_getLsbD_eq
    intro k hk
    rw [load, BitVec.getLsbD_extractLsb', BitVec.getLsbD_cast, BitVec.getLsbD_append]
    simp only [hk, decide_true, Bool.true_and]
    by_cases hin : i = n
    · subst hin
      rw [if_neg (by omega), Nat.add_sub_cancel_left]
    · have hlt : 8 * i + k < 8 * n := by omega
      rw [if_pos hlt, ← ih (by omega), BitVec.getLsbD_extractLsb']
      simp only [hk, decide_true, Bool.true_and]

/-- The addresses of a value of `n` bytes at `a`. -/
def place (littleEndian : Bool) (a n i : ℕ) : ℕ := a + byteIndex littleEndian n i

end ByteMemory
