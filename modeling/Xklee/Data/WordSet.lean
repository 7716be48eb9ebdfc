/-
Sets of small numbers, kept as the bits of words.

A set of numbers below `64 * k` is an array of `k` words of 64 bits: number `n` is bit `n % 64` of
word `n / 64`.
-/
import Mathlib.Data.Finset.Card
import Mathlib.Data.Nat.Notation

set_option autoImplicit false

/-- An array of words. -/
structure WordSet (k : ℕ) where
  words : Fin k → BitVec 64

namespace WordSet

variable {k : ℕ}

/-- All words zero. -/
def empty : WordSet k := ⟨fun _ => 0⟩

/-- A word of the array. -/
def word (s : WordSet k) (j : ℕ) : Option (BitVec 64) :=
  if h : j < k then some (s.words ⟨j, h⟩) else none

/-- The array with another word at an index. -/
def setWord (s : WordSet k) (j : ℕ) (w : BitVec 64) : WordSet k :=
  ⟨fun i => if i.val = j then w else s.words i⟩

/-- Membership. -/
def has (s : WordSet k) (n : ℕ) : Bool :=
  if h : n / 64 < k then (s.words ⟨n / 64, h⟩).getLsbD (n % 64) else false

/-- The set with one more number. -/
def insert (s : WordSet k) (n : ℕ) : WordSet k :=
  ⟨fun i => if i.val = n / 64 then s.words i ||| BitVec.twoPow 64 (n % 64) else s.words i⟩

@[simp] theorem has_empty (n : ℕ) : (empty : WordSet k).has n = false := by
  unfold has empty
  split
  · exact BitVec.getLsbD_zero
  · rfl

/-- Members are below the size. -/
theorem lt_of_has {s : WordSet k} {n : ℕ} (h : s.has n = true) : n < 64 * k := by
  unfold has at h
  split at h
  next hn => omega
  next => exact absurd h Bool.false_ne_true

/-- Setting one bit adds that number and no other. -/
theorem has_insert (s : WordSet k) {n : ℕ} (hn : n < 64 * k) (m : ℕ) :
    (s.insert n).has m = true ↔ m = n ∨ s.has m = true := by
  have hword : n / 64 < k := by omega
  unfold has insert
  by_cases hm : m / 64 < k
  · rw [dif_pos hm, dif_pos hm]
    by_cases heq : m / 64 = n / 64
    · -- the two numbers share the word, and differ when their bits do
      have hbit : m % 64 = n % 64 ↔ m = n := by omega
      simp only [heq, if_true, BitVec.getLsbD_or, BitVec.getLsbD_twoPow, Bool.or_eq_true,
        Bool.and_eq_true, decide_eq_true_eq]
      rw [eq_comm (a := n % 64), hbit]
      constructor
      · rintro (h | ⟨-, h⟩)
        · exact .inr h
        · exact .inl h
      · rintro (h | h)
        · exact .inr ⟨Nat.mod_lt _ (by omega), h⟩
        · exact .inl h
    · have hne : m ≠ n := fun h => heq (by rw [h])
      simp only [if_neg heq, hne, false_or]
  · rw [dif_neg hm, dif_neg hm]
    have hne : m ≠ n := by rintro rfl; exact hm hword
    simp [hne]

end WordSet
