/-
A file of a fixed number of bytes, with an offset.

Reading copies what is left from the offset on. Writing stores what falls below the end, and the
offset goes on as if everything had been stored, so that it may lie past the end. Seeking sets it
to a sum that is not negative.
-/
import Mathlib.Data.List.Basic
import Mathlib.Data.Nat.Notation
import Mathlib.Data.Int.Notation

set_option autoImplicit false

universe u

/-- The bytes, of any type, and the offset of the next one. -/
structure ByteFile (B : Type u) where
  offset : ℕ
  contents : List B

namespace ByteFile

variable {B : Type u}

/-- The bytes from the offset on, at most so many. -/
def next (f : ByteFile B) (count : ℕ) : List B := (f.contents.drop f.offset).take count

def read (f : ByteFile B) (count : ℕ) : ByteFile B :=
  { f with offset := f.offset + (f.next count).length }

/-- The contents with bytes of a buffer at a place. What does not fit is ignored. -/
def overlay (contents : List B) (offset : ℕ) (buf : ℕ → B) (count : ℕ) : List B :=
  contents.mapIdx fun i b => if offset ≤ i ∧ i < offset + count then buf (i - offset) else b

def write (f : ByteFile B) (buf : ℕ → B) (count : ℕ) : ByteFile B :=
  ⟨f.offset + count, overlay f.contents f.offset buf count⟩

/-- `none` for a negative offset. -/
def seek (f : ByteFile B) (sum : ℤ) : Option (ByteFile B) :=
  if 0 ≤ sum then some { f with offset := sum.toNat } else none

theorem length_next (f : ByteFile B) (count : ℕ) :
    (f.next count).length = min count (f.contents.length - f.offset) := by
  rw [next, List.length_take, List.length_drop]

@[simp] theorem length_overlay (contents : List B) (offset : ℕ) (buf : ℕ → B) (count : ℕ) :
    (overlay contents offset buf count).length = contents.length := List.length_mapIdx

/-- The bytes that fall below the end replace those that were there, and no other byte changes. -/
theorem getElem?_overlay (contents : List B) (offset : ℕ) (buf : ℕ → B) (count i : ℕ) :
    (overlay contents offset buf count)[i]?
      = if offset ≤ i ∧ i < offset + count then contents[i]?.map fun _ => buf (i - offset)
        else contents[i]? := by
  rw [overlay, List.getElem?_mapIdx]
  split
  next => rfl
  next =>
    cases contents[i]? with
    | none => rfl
    | some b => rfl

/-- Only the bytes below the end count. -/
theorem overlay_min (contents : List B) (offset : ℕ) (buf : ℕ → B) (count : ℕ) :
    overlay contents offset buf (min count (contents.length - offset))
      = overlay contents offset buf count := by
  refine List.ext_getElem? fun i => ?_
  rw [getElem?_overlay, getElem?_overlay]
  by_cases hi : i < contents.length
  · have hiff : (offset ≤ i ∧ i < offset + min count (contents.length - offset))
        ↔ (offset ≤ i ∧ i < offset + count) := by omega
    rw [if_congr hiff rfl rfl]
  · rw [List.getElem?_eq_none (Nat.le_of_not_lt hi)]
    simp

theorem overlay_zero (contents : List B) (offset : ℕ) (buf : ℕ → B) :
    overlay contents offset buf 0 = contents := by
  refine List.ext_getElem? fun i => ?_
  rw [getElem?_overlay, if_neg (by omega)]

/-- Copying into a list that is cut at the two ends of the copy. -/
theorem splice_eq_overlay {contents : List B} {offset count : ℕ} (buf : ℕ → B)
    (h : offset + count ≤ contents.length) :
    contents.take offset ++ (List.range count).map buf ++ contents.drop (offset + count)
      = overlay contents offset buf count := by
  refine List.ext_getElem? fun i => ?_
  rw [getElem?_overlay]
  have htake : (contents.take offset).length = offset := by
    rw [List.length_take]
    omega
  by_cases hlow : i < offset
  · rw [if_neg (by omega), List.append_assoc, List.getElem?_append_left (by omega),
      List.getElem?_take, if_pos hlow]
  · rw [List.append_assoc, List.getElem?_append_right (by omega), htake]
    by_cases hmid : i < offset + count
    · have hlt : i - offset < count := by omega
      rw [if_pos ⟨Nat.le_of_not_lt hlow, hmid⟩, List.getElem?_append_left (by simpa using hlt),
        List.getElem?_map, List.getElem?_range hlt, List.getElem?_eq_getElem (by omega)]
      rfl
    · rw [if_neg (by omega), List.getElem?_append_right (by simp; omega), List.getElem?_drop]
      congr 1
      simp
      omega

end ByteFile
