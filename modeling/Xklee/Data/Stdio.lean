/-
Byte files and the stdio calls on them.

A file that is read is the list of the bytes left; a file that is written is the list
of the bytes so far. `fread` and `fwrite` count whole items, and an item of size zero
is never counted. A record format is then a pair of functions, and
`repeatedly_flatMap` lifts what is known about one record to a sequence of them.
-/
import Mathlib.Data.List.Basic
import Mathlib.Data.Nat.Notation

set_option autoImplicit false

universe u

abbrev Byte : Type := BitVec 8

namespace Stdio

/-- `fread(ptr, size, nmemb, f)`: the count it returns, what it puts at `ptr`, and the
bytes left in the file. -/
def fread (size nmemb : ℕ) (f : List Byte) : ℕ × List Byte × List Byte :=
  if size = 0 then (0, [], f)
  else (min nmemb (f.length / size), f.take (size * nmemb), f.drop (size * nmemb))

/-- `fwrite(ptr, size, nmemb, f)`: the count it returns and the file afterwards. -/
def fwrite (ptr : List Byte) (size nmemb : ℕ) (f : List Byte) : ℕ × List Byte :=
  if size = 0 then (0, f) else (nmemb, f ++ ptr.take (size * nmemb))

/-- Reading one item of `n` bytes succeeds when `n` bytes are left and `n` is not zero. -/
theorem fread_append {n : ℕ} (hn : n ≠ 0) {data : List Byte} (hdata : data.length = n)
    (rest : List Byte) : fread n 1 (data ++ rest) = (1, data, rest) := by
  subst hdata
  have hpos : 0 < data.length := Nat.pos_of_ne_zero hn
  have hcount : min 1 ((data ++ rest).length / data.length) = 1 := by
    rw [List.length_append, Nat.min_eq_left]
    exact (Nat.one_le_div_iff hpos).mpr (Nat.le_add_right _ _)
  rw [fread, if_neg hn, hcount, Nat.mul_one, List.take_left, List.drop_left]

theorem fwrite_all {n : ℕ} (hn : n ≠ 0) (nmemb : ℕ) (ptr f : List Byte) :
    fwrite ptr n nmemb f = (nmemb, f ++ ptr.take (n * nmemb)) := if_neg hn

/-! ## Sequences of records -/

section Records

variable {α : Type u}

/-- Read `n` records. -/
def repeatedly (read : List Byte → Option (α × List Byte)) :
    ℕ → List Byte → Option (List α × List Byte)
  | 0, f => some ([], f)
  | n + 1, f =>
      match read f with
      | none => none
      | some (x, f) => (repeatedly read n f).map fun (xs, f) => (x :: xs, f)

variable {enc : α → List Byte} {g : α → Option α} {xs : List α}

/-- Where a reader undoes a writer up to `g`, the reader of a sequence undoes the
writer of a sequence. -/
theorem repeatedly_flatMap {read : List Byte → Option (α × List Byte)}
    (h : ∀ x ∈ xs, ∀ rest, read (enc x ++ rest) = (g x).map fun y => (y, rest)) (rest : List Byte) :
    repeatedly read xs.length (xs.flatMap enc ++ rest) = (xs.mapM g).map fun ys => (ys, rest) := by
  induction xs with
  | nil => rfl
  | cons x xs ih =>
    obtain ⟨hx, hxs⟩ := List.forall_mem_cons.mp h
    rw [List.flatMap_cons, List.length_cons, repeatedly, List.append_assoc, hx, List.mapM_cons]
    cases hg : g x with
    | none => rfl
    | some y =>
      simp only [Option.map_some, ih hxs, Option.bind_eq_bind, Option.bind_some]
      cases hgs : xs.mapM g with
      | none => rfl
      | some ys => rfl

/-- A partial identity that changes no record changes no sequence. -/
theorem mapM_eq_self_iff :
    xs.mapM g = some xs ↔ ∀ x ∈ xs, g x = some x := by
  induction xs with
  | nil => simp
  | cons x xs ih =>
    rw [List.mapM_cons, List.forall_mem_cons, ← ih]
    cases hg : g x with
    | none => simp
    | some y =>
      cases hgs : xs.mapM g with
      | none => simp
      | some ys => simp

/-- Write the records one after the other; the first failure ends it. -/
def writeAll (write : α → List Byte → Option (List Byte)) :
    List α → List Byte → Option (List Byte)
  | [], f => some f
  | x :: xs, f => (write x f).bind (writeAll write xs)

/-- A sequence is written when each of its records is. -/
theorem writeAll_eq {write : α → List Byte → Option (List Byte)} {ok : α → Prop} [DecidablePred ok]
    (h : ∀ x f, write x f = if ok x then some (f ++ enc x) else none) (xs : List α) (f : List Byte) :
    writeAll write xs f = if ∀ x ∈ xs, ok x then some (f ++ xs.flatMap enc) else none := by
  induction xs generalizing f with
  | nil => simp [writeAll]
  | cons x xs ih =>
    rw [writeAll, h]
    by_cases hx : ok x
    · rw [if_pos hx, Option.bind_some, ih]
      simp [hx]
    · rw [if_neg hx, Option.bind_none, if_neg (fun hall => hx (hall x List.mem_cons_self))]

end Records

end Stdio
