/-
Tree streams: `lib/Support/TreeStream.cpp`.

One file holds all the streams of a writer. A record of the file is two words in the
byte order of the host, which is little-endian, and then data: the parent and the child
with the top bit set for a fork, the stream and the number of bytes for a write. Writes
to one stream are gathered in a buffer.

The output file is good, and what is flushed to it is what is read back. The streams
passed in are streams of the writer. `buffer` is the memory from the start of the
buffer, which nothing initialises.
-/
import Xklee.Data.ForkLog
import Xklee.Data.Run
import Xklee.Data.Stdio
import Mathlib.Tactic.Linarith

set_option autoImplicit false

namespace Xklee

/-! ## Words -/

/-- The bytes of a word in memory. -/
def wordBytes (value : BitVec 32) : List Byte :=
  [value.extractLsb' 0 8, value.extractLsb' 8 8, value.extractLsb' 16 8, value.extractLsb' 24 8]

/-- `is.read(reinterpret_cast<char*>(&value), 4)`, while four bytes are left. -/
def readWord : List Byte → Option (BitVec 32 × List Byte)
  | d₀ :: d₁ :: d₂ :: d₃ :: is => some (d₃ ++ d₂ ++ d₁ ++ d₀, is)
  | _ => none

theorem length_readWord {is is' : List Byte} {value : BitVec 32}
    (h : readWord is = some (value, is')) : is'.length < is.length := by
  unfold readWord at h
  split at h
  · obtain ⟨-, rfl⟩ := Prod.mk.inj (Option.some.inj h)
    simp only [List.length_cons]
    omega
  · exact absurd h (by simp)

theorem readWord_append (value : BitVec 32) (rest : List Byte) :
    readWord (wordBytes value ++ rest) = some (value, rest) := by
  have hvalue : value.extractLsb' 24 8 ++ value.extractLsb' 16 8 ++ value.extractLsb' 8 8
      ++ value.extractLsb' 0 8 = value := by
    apply BitVec.eq_of_getLsbD_eq
    intro i hi
    simp only [BitVec.getLsbD_append, BitVec.getLsbD_extractLsb']
    grind
  exact congrArg (fun v => some (v, rest)) hvalue

/-- `1<<31` -/
def forkBit : BitVec 32 := 1 <<< 31

theorem getLsbD_of_lt_forkBit {id : BitVec 32} (h : id < forkBit) : id.getLsbD 31 = false := by
  have hmsb : id.msb = false := by
    rw [BitVec.msb_eq_false_iff_two_mul_lt]
    have : id.toNat < 2 ^ 31 := h
    omega
  exact hmsb

theorem or_forkBit_and (id : BitVec 32) : (id ||| forkBit) &&& forkBit ≠ 0 := by
  intro h
  have hbit := congrArg (fun b => b.getLsbD 31) h
  simp [forkBit] at hbit

theorem and_forkBit {size : BitVec 32} (h : size < forkBit) : size &&& forkBit = 0 := by
  rw [show forkBit = BitVec.twoPow 32 31 from rfl, BitVec.and_twoPow, getLsbD_of_lt_forkBit h]
  rfl

theorem or_forkBit_xor {id : BitVec 32} (h : id < forkBit) : (id ||| forkBit) ^^^ forkBit = id := by
  have hand := and_forkBit h
  apply BitVec.eq_of_getLsbD_eq
  intro i hi
  have hbit := congrArg (fun b => b.getLsbD i) hand
  simp only [BitVec.getLsbD_and] at hbit
  rw [BitVec.getLsbD_xor, BitVec.getLsbD_or]
  revert hbit
  cases id.getLsbD i <;> simp

/-! ## The writer -/

/-- `memcpy(&buffer[at], s, s.length)` -/
def memcpy (buffer : ℕ → Byte) (start : ℕ) (s : List Byte) : ℕ → Byte :=
  fun i => if start ≤ i then (s[i - start]?).getD (buffer i) else buffer i

/-- The first `n` bytes of a block. -/
def memory (buffer : ℕ → Byte) (n : ℕ) : List Byte := (List.range n).map buffer

structure TreeStreamWriter where
  buffer : ℕ → Byte
  lastID : BitVec 32
  bufferCount : BitVec 32
  output : List Byte
  ids : BitVec 32

namespace TreeStreamWriter

def bufferSize : ℕ := 4 * 4096

/-- The constructor. -/
def new (buffer : ℕ → Byte) : TreeStreamWriter where
  buffer := buffer
  lastID := 0
  bufferCount := 0
  output := []
  ids := 1

def flushBuffer (w : TreeStreamWriter) : TreeStreamWriter :=
  if w.bufferCount ≠ 0 then
    { w with
      output := w.output ++ wordBytes w.lastID ++ wordBytes w.bufferCount
        ++ memory w.buffer w.bufferCount.toNat
      bufferCount := 0 }
  else w

/-- `open(os)`, with the id of the new stream. `open()` opens a child of 0. -/
def openStream (w : TreeStreamWriter) (os : BitVec 32) : BitVec 32 × TreeStreamWriter :=
  let w := w.flushBuffer
  let id := w.ids
  let tag := id ||| forkBit
  (id, { w with
    ids := w.ids + 1
    output := w.output ++ wordBytes os ++ wordBytes tag })

/-- The first branch of `write`. -/
def makeRoom (w : TreeStreamWriter) (os size : BitVec 32) : TreeStreamWriter :=
  if w.bufferCount ≠ 0 ∧ (os ≠ w.lastID ∨ (size + w.bufferCount).toNat > bufferSize)
  then w.flushBuffer else w

def write (w : TreeStreamWriter) (os : BitVec 32) (s : List Byte) : TreeStreamWriter :=
  let size : BitVec 32 := .ofNat 32 s.length
  let s := s.take size.toNat
  let w := w.makeRoom os size
  if w.bufferCount ≠ 0 then
    { w with
      buffer := memcpy w.buffer w.bufferCount.toNat s
      bufferCount := w.bufferCount + size }
  else if size.toNat < bufferSize then
    { w with
      lastID := os
      buffer := memcpy w.buffer 0 s
      bufferCount := size }
  else
    -- The data comes from the buffer, not from `s`.
    { w with
      output := w.output ++ wordBytes os ++ wordBytes size ++ memory w.buffer size.toNat }

/-- `flush()`. The file that is read back holds the output at once. -/
def flush (w : TreeStreamWriter) : TreeStreamWriter := w.flushBuffer

/-! ## Reading a stream -/

/-- The two words that start a record. -/
def readHeader (is : List Byte) : Option ((BitVec 32 × BitVec 32) × List Byte) :=
  match readWord is with
  | none => none
  | some (id, is) => (readWord is).map fun (tag, is) => ((id, tag), is)

theorem length_readHeader {is is' : List Byte} {header : BitVec 32 × BitVec 32}
    (h : readHeader is = some (header, is')) : is'.length < is.length := by
  rw [readHeader] at h
  cases hid : readWord is with
  | none => rw [hid] at h; exact absurd h (by simp)
  | some idRest =>
    obtain ⟨id, rest⟩ := idRest
    rw [hid] at h
    obtain ⟨⟨tag, rest'⟩, htag, heq⟩ := Option.map_eq_some_iff.mp h
    obtain ⟨-, rfl⟩ := Prod.mk.inj heq
    exact (length_readWord htag).trans (length_readWord hid)

/-- The first loop of `readStream`: the ancestors of the stream, with `roots.back()` first.
A word that cannot be read is not initialised, and there is no result. -/
def findRoots (streamID : BitVec 32) (parents : List (BitVec 32 × BitVec 32))
    (is : List Byte) : Option (List (BitVec 32)) :=
  match h : readHeader is with
  | none => none
  | some ((id, tag), rest) =>
      have : rest.length < is.length := length_readHeader h
      if tag &&& forkBit ≠ 0 then
        let child := tag ^^^ forkBit
        if child = streamID then
          ForkLog.rootsUp parents 0 (parents.length + 1) id [child]
        else findRoots streamID (parents ++ [(child, id)]) rest
      else findRoots streamID parents (rest.drop tag.toNat)
termination_by is.length
decreasing_by
  · exact this
  · exact Nat.lt_of_le_of_lt (List.length_drop ▸ Nat.sub_le _ _) this

/-- `size` calls of `is.get()`, which gives -1 at the end of the file. -/
def getBytes (size : ℕ) (is : List Byte) : List Byte :=
  is.take size ++ List.replicate (size - is.length) 255

/-- The second loop. -/
def readRecords (roots : List (BitVec 32)) (out is : List Byte) : List Byte :=
  match h : readHeader is with
  | none => out
  | some ((id, tag), rest) =>
      have : rest.length < is.length := length_readHeader h
      if tag &&& forkBit ≠ 0 then
        readRecords (ForkLog.popFork roots id (tag ^^^ forkBit)) out rest
      else if roots.head? = some id then
        readRecords roots (out ++ getBytes tag.toNat rest) (rest.drop tag.toNat)
      else readRecords roots out (rest.drop tag.toNat)
termination_by is.length
decreasing_by
  · exact this
  · exact Nat.lt_of_le_of_lt (List.length_drop ▸ Nat.sub_le _ _) this
  · exact Nat.lt_of_le_of_lt (List.length_drop ▸ Nat.sub_le _ _) this

/-- `readStream(streamID, out)`, with `none` where an assertion fails. -/
def readStream (w : TreeStreamWriter) (streamID : BitVec 32) (out : List Byte) :
    Option (List Byte × TreeStreamWriter) :=
  if 0 < streamID ∧ streamID < w.ids then
    let w := w.flush
    (findRoots streamID [] w.output).map fun roots => (readRecords roots out w.output, w)
  else none

end TreeStreamWriter

/-! ## Records -/

/-- A record of the file. -/
abbrev TreeRecord : Type := ForkLog.Record (BitVec 32) Byte

namespace TreeRecord

/-- The bytes of a record. -/
def encode : TreeRecord → List Byte
  | .fork parent child => wordBytes parent ++ wordBytes (child ||| forkBit)
  | .data id bytes => wordBytes id ++ wordBytes (.ofNat 32 bytes.length) ++ bytes

/-- The tag of the record tells a fork from a write. -/
def Tagged : TreeRecord → Prop
  | .fork _ child => child < forkBit
  | .data _ bytes => bytes.length < 2 ^ 31

end TreeRecord

namespace TreeStreamWriter

open TreeRecord

theorem readHeader_append (id tag : BitVec 32) (rest : List Byte) :
    readHeader (wordBytes id ++ (wordBytes tag ++ rest)) = some ((id, tag), rest) := by
  rw [readHeader, readWord_append]
  exact congrArg (Option.map _) (readWord_append tag rest)

variable {id tag : BitVec 32} {rest is : List Byte} {n : ℕ} {log : List TreeRecord}

theorem ofNat_lt_forkBit (h : n < 2 ^ 31) : BitVec.ofNat 32 n < forkBit := by
  rw [BitVec.lt_def, BitVec.toNat_ofNat, Nat.mod_eq_of_lt (h.trans (by decide))]
  exact h

theorem toNat_ofNat_length (h : n < 2 ^ 31) : (BitVec.ofNat 32 n).toNat = n := by
  rw [BitVec.toNat_ofNat, Nat.mod_eq_of_lt (h.trans (by decide))]

theorem getBytes_append (bytes rest : List Byte) : getBytes bytes.length (bytes ++ rest) = bytes := by
  have hnone : bytes.length - (bytes ++ rest).length = 0 := by
    rw [List.length_append]
    omega
  rw [getBytes, List.take_left, hnone, List.replicate_zero, List.append_nil]

/-- One turn of the first loop. -/
theorem findRoots_header (h : readHeader is = some ((id, tag), rest)) (streamID : BitVec 32)
    (parents : List (BitVec 32 × BitVec 32)) :
    findRoots streamID parents is
      = if tag &&& forkBit ≠ 0 then
          if tag ^^^ forkBit = streamID then
            ForkLog.rootsUp parents 0 (parents.length + 1) id [tag ^^^ forkBit]
          else findRoots streamID (parents ++ [(tag ^^^ forkBit, id)]) rest
        else findRoots streamID parents (rest.drop tag.toNat) := by
  rw [findRoots]
  split
  next heq => rw [h] at heq; exact absurd heq (by simp)
  next id' tag' rest' heq =>
    rw [h] at heq
    simp only [Option.some.injEq, Prod.mk.injEq] at heq
    obtain ⟨⟨rfl, rfl⟩, rfl⟩ := heq
    rfl

/-- One turn of the second loop. -/
theorem readRecords_header (h : readHeader is = some ((id, tag), rest)) (roots : List (BitVec 32))
    (out : List Byte) :
    readRecords roots out is
      = if tag &&& forkBit ≠ 0 then
          readRecords (ForkLog.popFork roots id (tag ^^^ forkBit)) out rest
        else if roots.head? = some id then
          readRecords roots (out ++ getBytes tag.toNat rest) (rest.drop tag.toNat)
        else readRecords roots out (rest.drop tag.toNat) := by
  rw [readRecords]
  split
  next heq => rw [h] at heq; exact absurd heq (by simp)
  next id' tag' rest' heq =>
    rw [h] at heq
    simp only [Option.some.injEq, Prod.mk.injEq] at heq
    obtain ⟨⟨rfl, rfl⟩, rfl⟩ := heq
    rfl

/-- The first loop on a file of records is the first pass over the log. -/
theorem findRoots_encode (streamID : BitVec 32) (hlog : ∀ r ∈ log, Tagged r)
    (parents : List (BitVec 32 × BitVec 32)) :
    findRoots streamID parents (log.flatMap encode) = ForkLog.findRoots 0 streamID parents log := by
  induction log generalizing parents with
  | nil =>
    rw [List.flatMap_nil, findRoots]
    rfl
  | cons r log ih =>
    obtain ⟨hr, hrest⟩ := List.forall_mem_cons.mp hlog
    rw [List.flatMap_cons]
    cases r with
    | fork parent child =>
      rw [encode, List.append_assoc, findRoots_header (readHeader_append _ _ _),
        if_pos (or_forkBit_and child), or_forkBit_xor hr, ih hrest]
      rfl
    | data id bytes =>
      rw [encode, List.append_assoc, List.append_assoc,
        findRoots_header (readHeader_append _ _ _),
        if_neg (not_not.mpr (and_forkBit (ofNat_lt_forkBit hr))), toNat_ofNat_length hr,
        List.drop_left, ih hrest]
      rfl

/-- The second loop on a file of records is the second pass over the log. -/
theorem readRecords_encode (hlog : ∀ r ∈ log, Tagged r) (roots : List (BitVec 32)) (out : List Byte) :
    readRecords roots out (log.flatMap encode) = (log.foldl ForkLog.collect (roots, out)).2 := by
  induction log generalizing roots out with
  | nil =>
    rw [List.flatMap_nil, readRecords]
    rfl
  | cons r log ih =>
    obtain ⟨hr, hrest⟩ := List.forall_mem_cons.mp hlog
    rw [List.flatMap_cons, List.foldl_cons]
    cases r with
    | fork parent child =>
      rw [encode, List.append_assoc, readRecords_header (readHeader_append _ _ _),
        if_pos (or_forkBit_and child), or_forkBit_xor hr, ih hrest]
      rfl
    | data id bytes =>
      rw [encode, List.append_assoc, List.append_assoc,
        readRecords_header (readHeader_append _ _ _),
        if_neg (not_not.mpr (and_forkBit (ofNat_lt_forkBit hr))), toNat_ofNat_length hr,
        List.drop_left, getBytes_append, ih hrest, ih hrest, ForkLog.collect]
      by_cases hhead : roots.head? = some id
      · rw [if_pos hhead, if_pos hhead]
      · rw [if_neg hhead, if_neg hhead]

end TreeStreamWriter

/-! ## Runs -/

/-- A call on a writer, with the id of the stream it is made through. -/
inductive StreamCall
  | openStream (parent : BitVec 32)
  | write (id : BitVec 32) (s : List Byte)
  | flush
deriving DecidableEq

namespace TreeStreamWriter

/-- One call; opening answers the new stream. -/
def step (w : TreeStreamWriter) : StreamCall → Option (BitVec 32) × TreeStreamWriter
  | .openStream parent => let (id, w) := w.openStream parent; (some id, w)
  | .write id s => (none, w.write id s)
  | .flush => (none, w.flush)

/-- The call is made through a stream of the writer; `open()` passes the id 0. -/
def Opened (w : TreeStreamWriter) : StreamCall → Prop
  | .openStream parent => parent < w.ids
  | .write id _ => 0 < id ∧ id < w.ids
  | .flush => True

instance (w : TreeStreamWriter) (op : StreamCall) : Decidable (w.Opened op) :=
  match op with
  | .openStream _ => inferInstanceAs (Decidable (_ < _))
  | .write _ _ => inferInstanceAs (Decidable (_ ∧ _))
  | .flush => inferInstanceAs (Decidable True)

/-- The id of a new stream leaves the top bit free. A write is shorter than the buffer, or
fills it with what it holds already. -/
def Fits (w : TreeStreamWriter) : StreamCall → Prop
  | .openStream _ => w.ids < forkBit
  | .write _ s => s.length < bufferSize ∨ s.length = bufferSize ∧ memory w.buffer bufferSize = s
  | .flush => True

end TreeStreamWriter

/-- What the streams are for: opened ids, and what each holds. -/
structure Streams where
  ids : BitVec 32
  contents : BitVec 32 → List Byte

namespace Streams

def new : Streams := ⟨1, fun _ => []⟩

/-- A child starts with what its parent holds at the fork, and a write is appended. -/
def step (t : Streams) : StreamCall → Option (BitVec 32) × Streams
  | .openStream parent =>
      (some t.ids, ⟨t.ids + 1, Function.update t.contents t.ids (t.contents parent)⟩)
  | .write id s => (none, { t with contents := Function.update t.contents id (t.contents id ++ s) })
  | .flush => (none, t)

end Streams

/-! ## The file and the streams -/

namespace TreeStreamWriter

open TreeRecord ForkLog

/-- The record that the buffer becomes. -/
def pending (w : TreeStreamWriter) : List TreeRecord :=
  if w.bufferCount = 0 then [] else [.data w.lastID (memory w.buffer w.bufferCount.toNat)]

/-- The file holds the records of a log, and the log with the pending record denotes the
streams. -/
structure Records (w : TreeStreamWriter) (t : Streams) (log : List TreeRecord) : Prop where
  output : w.output = log.flatMap encode
  tagged : ∀ r ∈ log, Tagged r
  buffered : w.bufferCount.toNat ≤ bufferSize
  wellFormed : WellFormed 0 (log ++ w.pending)
  opened : ∀ id, id ∈ opened (log ++ w.pending) ↔ 0 < id ∧ id < w.ids
  ids : t.ids = w.ids
  contents : t.contents = contents (log ++ w.pending)

theorem length_memory (buffer : ℕ → Byte) (n : ℕ) : (memory buffer n).length = n := by
  rw [memory, List.length_map, List.length_range]

theorem records_new (buffer : ℕ → Byte) : Records (new buffer) Streams.new [] where
  output := rfl
  tagged := List.forall_mem_nil _
  buffered := Nat.zero_le _
  wellFormed := .nil
  opened id := by
    change id ∈ [] ↔ 0 < id ∧ id < 1
    simp only [List.not_mem_nil, false_iff, BitVec.lt_def]
    change ¬(0 < id.toNat ∧ id.toNat < 1)
    omega
  ids := rfl
  contents := rfl

theorem pending_flushBuffer (w : TreeStreamWriter) : w.flushBuffer.pending = [] := by
  rw [pending, flushBuffer]
  by_cases h : w.bufferCount = 0
  · rw [if_neg (not_not.mpr h), if_pos h]
  · rw [if_pos h, if_pos rfl]

theorem bufferCount_flushBuffer (w : TreeStreamWriter) : w.flushBuffer.bufferCount = 0 := by
  rw [flushBuffer]
  by_cases h : w.bufferCount = 0
  · rw [if_neg (not_not.mpr h), h]
  · rw [if_pos h]

theorem ids_flushBuffer (w : TreeStreamWriter) : w.flushBuffer.ids = w.ids := by
  rw [flushBuffer]
  split <;> rfl

variable {w : TreeStreamWriter} {t : Streams} {log : List TreeRecord} {s : List Byte}
  {id : BitVec 32}

theorem Records.output_flushBuffer (h : Records w t log) :
    w.flushBuffer.output = (log ++ w.pending).flatMap encode := by
  rw [flushBuffer, pending, List.flatMap_append, ← h.output]
  by_cases h0 : w.bufferCount = 0
  · rw [if_neg (not_not.mpr h0), if_pos h0, List.flatMap_nil, List.append_nil]
  · rw [if_pos h0, if_neg h0, List.flatMap_cons, List.flatMap_nil, List.append_nil, encode,
      length_memory, BitVec.ofNat_toNat, BitVec.setWidth_eq]
    simp only [List.append_assoc]

theorem Records.tagged_pending (h : Records w t log) : ∀ r ∈ log ++ w.pending, Tagged r := by
  intro r hr
  rw [List.mem_append, pending] at hr
  by_cases h0 : w.bufferCount = 0
  · rw [if_pos h0] at hr
    exact h.tagged r (hr.resolve_right (List.not_mem_nil))
  · rw [if_neg h0, List.mem_singleton] at hr
    rcases hr with hr | rfl
    · exact h.tagged r hr
    · change (memory _ _).length < 2 ^ 31
      rw [length_memory]
      exact h.buffered.trans_lt (by decide)

/-- Flushing the buffer puts the pending record into the file. -/
theorem Records.flushBuffer (h : Records w t log) : Records w.flushBuffer t (log ++ w.pending) where
  output := h.output_flushBuffer
  tagged := h.tagged_pending
  buffered := by
    rw [bufferCount_flushBuffer]
    exact Nat.zero_le _
  wellFormed := by
    rw [pending_flushBuffer, List.append_nil]
    exact h.wellFormed
  opened id := by
    rw [pending_flushBuffer, List.append_nil, ids_flushBuffer]
    exact h.opened id
  ids := h.ids.trans (ids_flushBuffer w).symm
  contents := by
    rw [pending_flushBuffer, List.append_nil]
    exact h.contents

/-- Flushing changes neither the ids nor the buffer. -/
theorem buffer_flushBuffer (w : TreeStreamWriter) : w.flushBuffer.buffer = w.buffer := by
  rw [flushBuffer]
  split <;> rfl

/-- Opening a stream adds a fork. -/
theorem Records.openStream (h : Records w t log) {parent : BitVec 32} (hparent : parent < w.ids)
    (hids : w.ids < forkBit) :
    Records (w.openStream parent).2 (t.step (.openStream parent)).2
      (log ++ w.pending ++ [.fork parent w.ids]) := by
  have hf := h.flushBuffer
  have hpending : (w.openStream parent).2.pending = [] := pending_flushBuffer w
  have hsucc : ∀ id : BitVec 32, id < w.ids + 1 ↔ id < w.ids ∨ id = w.ids := by
    intro id
    have hone : (w.ids + 1).toNat = w.ids.toNat + 1 := by
      have hlt : w.ids.toNat < 2 ^ 31 := hids
      rw [BitVec.toNat_add]
      exact Nat.mod_eq_of_lt (by change w.ids.toNat + 1 < 2 ^ 32; omega)
    rw [BitVec.lt_def, BitVec.lt_def, ← BitVec.toNat_inj, hone]
    exact Nat.lt_succ_iff_lt_or_eq
  have hpos : 0 < w.ids := by
    rw [BitVec.lt_def] at hparent ⊢
    exact Nat.zero_lt_of_lt hparent
  constructor
  · change w.flushBuffer.output ++ wordBytes parent ++ wordBytes (w.flushBuffer.ids ||| forkBit) = _
    rw [List.flatMap_append, ← h.output_flushBuffer, ids_flushBuffer, List.append_assoc]
    exact congrArg _ (List.append_nil _).symm
  · exact List.forall_mem_append.mpr ⟨h.tagged_pending, List.forall_mem_singleton.mpr hids⟩
  · exact hf.buffered
  · rw [hpending, List.append_nil]
    refine .fork h.wellFormed ?_ ?_ ?_
    · rw [h.opened, BitVec.lt_def, ← BitVec.toNat_inj]
      change parent.toNat = 0 ∨ 0 < parent.toNat ∧ parent < w.ids
      have := Nat.eq_zero_or_pos parent.toNat
      exact this.imp_right fun hp => ⟨hp, hparent⟩
    · rw [h.opened]
      exact fun hmem => BitVec.lt_irrefl _ hmem.2
    · exact fun heq => BitVec.lt_irrefl _ (heq ▸ hpos)
  · intro id
    have hids' : (w.openStream parent).2.ids = w.ids + 1 := congrArg (· + 1) (ids_flushBuffer w)
    rw [hpending, List.append_nil, opened_snoc_fork, List.mem_append, h.opened, List.mem_singleton,
      hids', hsucc]
    constructor
    · rintro (⟨hid, hlt⟩ | rfl)
      · exact ⟨hid, .inl hlt⟩
      · exact ⟨hpos, .inr rfl⟩
    · rintro ⟨hid, hlt | heq⟩
      · exact .inl ⟨hid, hlt⟩
      · exact .inr heq
  · change t.ids + 1 = w.flushBuffer.ids + 1
    rw [ids_flushBuffer, h.ids]
  · rw [hpending, List.append_nil, contents_snoc, ← h.contents, ForkLog.extend, ← h.ids]
    rfl

theorem memory_memcpy (buffer : ℕ → Byte) (n : ℕ) (s : List Byte) :
    memory (memcpy buffer n s) (n + s.length) = memory buffer n ++ s := by
  apply List.ext_getElem
  · rw [List.length_append, length_memory, length_memory]
  · intro i h₁ h₂
    rw [length_memory] at h₁
    simp only [memory, List.getElem_map, List.getElem_range, memcpy]
    by_cases hi : n ≤ i
    · have hsub : i - n < s.length := by omega
      rw [if_pos hi, List.getElem_append_right (by simpa using hi)]
      simp [List.getElem?_eq_getElem hsub]
    · rw [if_neg hi, List.getElem_append_left (by simpa using hi)]
      simp

/-- A write that the buffer has room for. -/
theorem Records.appendBuffer (h : Records w t log) (h0 : w.bufferCount ≠ 0) (hlast : id = w.lastID)
    (hroom : w.bufferCount.toNat + s.length ≤ bufferSize) :
    Records { w with
        buffer := memcpy w.buffer w.bufferCount.toNat s
        bufferCount := w.bufferCount + .ofNat 32 s.length }
      (t.step (.write id s)).2 log := by
  subst hlast
  have hcount : (w.bufferCount + BitVec.ofNat 32 s.length).toNat = w.bufferCount.toNat + s.length := by
    have hsize : bufferSize < 2 ^ 32 := by decide
    rw [BitVec.toNat_add, BitVec.toNat_ofNat, Nat.add_mod_mod]
    exact Nat.mod_eq_of_lt (by omega)
  have hne : w.bufferCount + BitVec.ofNat 32 s.length ≠ 0 := by
    intro heq
    rw [heq] at hcount
    have hz : w.bufferCount.toNat = 0 := by
      have : (0 : BitVec 32).toNat = 0 := rfl
      omega
    exact h0 (BitVec.eq_of_toNat_eq hz)
  have hold : w.pending = [.data w.lastID (memory w.buffer w.bufferCount.toNat)] := if_neg h0
  have hwf := h.wellFormed
  have hopened := h.opened
  rw [hold] at hwf hopened
  obtain ⟨hlog, hid⟩ := hwf.of_snoc_data
  have hnew : pending { w with
      buffer := memcpy w.buffer w.bufferCount.toNat s
      bufferCount := w.bufferCount + .ofNat 32 s.length }
      = [.data w.lastID (memory w.buffer w.bufferCount.toNat ++ s)] := by
    rw [pending, if_neg hne]
    simp only [hcount, memory_memcpy]
  constructor
  · exact h.output
  · exact h.tagged
  · exact hcount.trans_le hroom
  · rw [hnew]
    exact .data hlog hid _
  · intro id
    rw [hnew, opened_snoc_data, ← hopened, opened_snoc_data]
  · exact h.ids
  · rw [hnew, contents_snoc, ForkLog.extend]
    change Function.update t.contents w.lastID (t.contents w.lastID ++ s) = _
    rw [h.contents, hold, contents_snoc, ForkLog.extend, Function.update_self, Function.update_idem,
      List.append_assoc]

/-- A write into the empty buffer. -/
theorem Records.fillBuffer (h : Records w t log) (h0 : w.bufferCount = 0)
    (hid : 0 < id ∧ id < w.ids) (hs : s.length < bufferSize) :
    Records { w with
        lastID := id
        buffer := memcpy w.buffer 0 s
        bufferCount := .ofNat 32 s.length }
      (t.step (.write id s)).2 log := by
  have hcount : (BitVec.ofNat 32 s.length).toNat = s.length :=
    toNat_ofNat_length (hs.trans (by decide))
  have hold : w.pending = [] := if_pos h0
  have hwf := h.wellFormed
  have hopened := h.opened
  have hcontents := h.contents
  rw [hold, List.append_nil] at hwf hopened hcontents
  have hmem : memory (memcpy w.buffer 0 s) s.length = s := by
    have hall := memory_memcpy w.buffer 0 s
    rwa [Nat.zero_add] at hall
  have hempty : BitVec.ofNat 32 s.length = 0 ↔ s = [] := by
    rw [← BitVec.toNat_inj, hcount]
    exact List.length_eq_zero_iff
  have hnew : pending { w with
      lastID := id
      buffer := memcpy w.buffer 0 s
      bufferCount := .ofNat 32 s.length } = if s = [] then [] else [.data id s] := by
    rw [pending]
    simp only [hcount, hempty, hmem]
  by_cases hs0 : s = []
  · -- Nothing is written and the buffer stays empty.
    rw [if_pos hs0] at hnew
    constructor
    · exact h.output
    · exact h.tagged
    · exact hcount.trans_le hs.le
    · rw [hnew, List.append_nil]
      exact hwf
    · rw [hnew, List.append_nil]
      exact hopened
    · exact h.ids
    · rw [hnew, List.append_nil, ← hcontents]
      change Function.update t.contents id (t.contents id ++ s) = _
      rw [hs0, List.append_nil, Function.update_eq_self]
  · rw [if_neg hs0] at hnew
    constructor
    · exact h.output
    · exact h.tagged
    · exact hcount.trans_le hs.le
    · rw [hnew]
      exact .data hwf ((hopened id).mpr hid) _
    · rw [hnew, opened_snoc_data]
      exact hopened
    · exact h.ids
    · rw [hnew, contents_snoc, ← hcontents]
      rfl

/-- The buffer is then empty, or it is the stream's and has room for the bytes. -/
theorem Records.makeRoom (h : Records w t log) (id : BitVec 32) {n : ℕ} (hn : n < 2 ^ 31) :
    (∃ log, Records (w.makeRoom id (.ofNat 32 n)) t log)
      ∧ ((w.makeRoom id (.ofNat 32 n)).bufferCount ≠ 0 →
          id = (w.makeRoom id (.ofNat 32 n)).lastID
            ∧ (w.makeRoom id (.ofNat 32 n)).bufferCount.toNat + n ≤ bufferSize) := by
  have hsum : (BitVec.ofNat 32 n + w.bufferCount).toNat = w.bufferCount.toNat + n := by
    have hle := h.buffered
    have hsize : 2 ^ 31 + bufferSize < 2 ^ 32 := by decide
    rw [BitVec.toNat_add, toNat_ofNat_length hn, Nat.add_comm n]
    exact Nat.mod_eq_of_lt (by omega)
  unfold TreeStreamWriter.makeRoom
  rw [hsum]
  split
  next => exact ⟨⟨_, h.flushBuffer⟩, fun h0 => (h0 (bufferCount_flushBuffer w)).elim⟩
  next hstay =>
    rw [not_and, not_or, not_not, not_lt] at hstay
    exact ⟨⟨log, h⟩, hstay⟩

theorem ids_makeRoom (w : TreeStreamWriter) (id size : BitVec 32) :
    (w.makeRoom id size).ids = w.ids := by
  rw [makeRoom]
  split
  next => exact ids_flushBuffer w
  next => rfl

theorem ids_write (w : TreeStreamWriter) (id : BitVec 32) (s : List Byte) :
    (w.write id s).ids = w.ids := by
  simp only [write]
  split
  next => exact ids_makeRoom w _ _
  next => split <;> exact ids_makeRoom w _ _

theorem buffer_makeRoom (w : TreeStreamWriter) (id size : BitVec 32) :
    (w.makeRoom id size).buffer = w.buffer := by
  rw [makeRoom]
  split
  next => exact buffer_flushBuffer w
  next => rfl

/-- A write that is shorter than the buffer. -/
theorem Records.write (h : Records w t log) (hid : 0 < id ∧ id < w.ids) (hs : s.length < bufferSize) :
    ∃ log, Records (w.write id s) (t.step (.write id s)).2 log := by
  have hlen : s.length < 2 ^ 31 := hs.trans (by decide)
  obtain ⟨⟨log', h'⟩, hroom⟩ := h.makeRoom id hlen
  simp only [TreeStreamWriter.write, toNat_ofNat_length hlen, List.take_length]
  by_cases h0 : (w.makeRoom id (.ofNat 32 s.length)).bufferCount = 0
  · rw [if_neg (not_not.mpr h0), if_pos hs]
    exact ⟨log', h'.fillBuffer h0 (ids_makeRoom w _ _ ▸ hid) hs⟩
  · obtain ⟨hlast, hle⟩ := hroom h0
    rw [if_pos h0]
    exact ⟨log', h'.appendBuffer h0 hlast hle⟩

/-- A longer write appends what the buffer holds, whatever the bytes are. -/
theorem Records.writeLong (h : Records w t log) (hid : 0 < id ∧ id < w.ids)
    (hs : bufferSize ≤ s.length) (hlen : s.length < 2 ^ 31) :
    ∃ log, Records (w.write id s) (t.step (.write id (memory w.buffer s.length))).2 log := by
  obtain ⟨⟨log', h'⟩, hroom⟩ := h.makeRoom id hlen
  have h0 : (w.makeRoom id (.ofNat 32 s.length)).bufferCount = 0 := by
    by_contra h0
    have hle := (hroom h0).2
    exact h0 (BitVec.eq_of_toNat_eq (show _ = 0 by omega))
  have hold : (w.makeRoom id (.ofNat 32 s.length)).pending = [] := if_pos h0
  have hwf := h'.wellFormed
  have hopened := h'.opened
  have hcontents := h'.contents
  rw [hold, List.append_nil] at hwf hopened hcontents
  simp only [TreeStreamWriter.write, toNat_ofNat_length hlen, List.take_length]
  rw [if_neg (not_not.mpr h0), if_neg (not_lt.mpr hs), buffer_makeRoom]
  refine ⟨log' ++ [.data id (memory w.buffer s.length)], ?_, ?_, h'.buffered, ?_, ?_, h'.ids, ?_⟩
  · rw [List.flatMap_append, ← h'.output, List.flatMap_singleton, encode, length_memory]
    simp only [List.append_assoc]
  · refine List.forall_mem_append.mpr ⟨h'.tagged, List.forall_mem_singleton.mpr ?_⟩
    change (memory w.buffer s.length).length < 2 ^ 31
    rw [length_memory]
    exact hlen
  · rw [pending, if_pos h0, List.append_nil]
    exact .data hwf ((hopened id).mpr (ids_makeRoom w _ _ ▸ hid)) _
  · rw [pending, if_pos h0, List.append_nil, opened_snoc_data]
    exact hopened
  · rw [pending, if_pos h0, List.append_nil, contents_snoc, ← hcontents]
    rfl

/-- The file and the buffer of the writer denote the streams. -/
def Denotes (w : TreeStreamWriter) (t : Streams) : Prop := ∃ log, Records w t log

/-- One call keeps the writer and the streams together. -/
theorem step_denotes (w : TreeStreamWriter) (t : Streams) (op : StreamCall) (h : Denotes w t)
    (hop : w.Opened op ∧ w.Fits op) :
    (w.step op).1 = (t.step op).1 ∧ Denotes (w.step op).2 (t.step op).2 := by
  obtain ⟨log, h⟩ := h
  obtain ⟨hopened, hfits⟩ := hop
  cases op with
  | openStream parent =>
    refine ⟨congrArg some ?_, _, h.openStream hopened hfits⟩
    exact (ids_flushBuffer w).trans h.ids.symm
  | write id s =>
    refine ⟨rfl, ?_⟩
    rcases hfits with hs | ⟨hs, hmem⟩
    · exact h.write hopened hs
    · have hlong := h.writeLong hopened (Nat.le_of_eq hs.symm) (hs ▸ by decide)
      rwa [hs, hmem] at hlong
  | flush => exact ⟨rfl, _, h.flushBuffer⟩

/-- A stream is read back from the file. -/
theorem Denotes.readStream (h : Denotes w t) (hid : 0 < id ∧ id < w.ids) (out : List Byte) :
    w.readStream id out = some (out ++ t.contents id, w.flush) := by
  obtain ⟨log, h⟩ := h
  have hmem := (h.opened id).mpr hid
  have hread := read_eq h.wellFormed hmem out
  obtain ⟨roots, hroots, hcollect⟩ := Option.map_eq_some_iff.mp hread
  rw [TreeStreamWriter.readStream, if_pos hid]
  change (TreeStreamWriter.findRoots id [] w.flushBuffer.output).map _ = _
  rw [h.output_flushBuffer, findRoots_encode id h.tagged_pending, hroots, Option.map_some, flush,
    h.output_flushBuffer, readRecords_encode h.tagged_pending, hcollect, h.contents]

/-- In every run whose calls fit, every stream reads back as what the streams hold: what
its parent held at the fork, and then what was written to it. -/
theorem readStream_run (buffer : ℕ → Byte) (ops : List StreamCall)
    (hopened : AllSteps step Opened (new buffer) ops) (hfits : AllSteps step Fits (new buffer) ops)
    {id : BitVec 32} (hid : 0 < id ∧ id < (run step (new buffer) ops).2.ids) (out : List Byte) :
    ((run step (new buffer) ops).2.readStream id out).map Prod.fst
      = some (out ++ (run Streams.step Streams.new ops).2.contents id) := by
  have hnew : Denotes (new buffer) Streams.new := ⟨[], records_new buffer⟩
  obtain ⟨-, h⟩ := run_simulates Eq step_denotes hnew (hopened.and hfits)
  rw [h.readStream hid out]
  rfl

/-- Two streams, forked between two writes to the first. -/
def forkedWrites : List StreamCall :=
  [.openStream 0, .write 1 [7], .openStream 1, .write 1 [8], .write 2 [9], .flush]

theorem readStream_run_forkedWrites :
    ((run step (new fun _ => 0) forkedWrites).2.readStream 2 []).map Prod.fst = some [7, 9] :=
  readStream_run (fun _ => 0) forkedWrites
    ⟨by decide, by decide, by decide, by decide, by decide, by decide, trivial⟩
    ⟨(by decide : (1 : BitVec 32) < forkBit), .inl (by decide),
      (by decide : (2 : BitVec 32) < forkBit), .inl (by decide), .inl (by decide), trivial, trivial⟩
    (by decide) []

/-- The condition on writes is needed: after a longer write the stream reads back right
exactly when the buffer held the bytes already. -/
theorem readStream_writeLong_iff (h : Denotes w t) (hid : 0 < id ∧ id < w.ids)
    (hs : bufferSize ≤ s.length) (hlen : s.length < 2 ^ 31) (out : List Byte) :
    ((w.write id s).readStream id out).map Prod.fst
        = some (out ++ (t.step (.write id s)).2.contents id)
      ↔ memory w.buffer s.length = s := by
  obtain ⟨log, h⟩ := h
  have hlong : Denotes (w.write id s) (t.step (.write id (memory w.buffer s.length))).2 :=
    h.writeLong hid hs hlen
  rw [hlong.readStream (ids_write w id s ▸ hid) out]
  change some (out ++ Function.update t.contents id (t.contents id ++ memory w.buffer s.length) id)
    = some (out ++ Function.update t.contents id (t.contents id ++ s) id) ↔ _
  rw [Function.update_self, Function.update_self, Option.some.injEq, List.append_right_inj,
    List.append_right_inj]

/-- A stream with one write. -/
def oneWrite (s : List Byte) : List StreamCall := [.openStream 0, .write 1 s]

theorem ids_oneWrite (w : TreeStreamWriter) (s : List Byte) :
    (run step w (oneWrite s)).2.ids = (w.openStream 0).2.ids := ids_write _ _ _

/-- With a buffer of zeros, a write of `bufferSize` ones puts zeros into the stream. -/
theorem longWrite_lost :
    ¬∀ (buffer : ℕ → Byte) (ops : List StreamCall), AllSteps step Opened (new buffer) ops →
      ∀ id, 0 < id ∧ id < (run step (new buffer) ops).2.ids → ∀ out,
        ((run step (new buffer) ops).2.readStream id out).map Prod.fst
          = some (out ++ (run Streams.step Streams.new ops).2.contents id) := by
  intro hall
  have hopen : Denotes ((new fun _ => 0).openStream 0).2 (Streams.new.step (.openStream 0)).2 :=
    (step_denotes _ _ (.openStream 0) ⟨[], records_new fun _ => 0⟩
      ⟨by decide, (by decide : (1 : BitVec 32) < forkBit)⟩).2
  have hid : (0 : BitVec 32) < 1 ∧ 1 < ((new fun _ => 0).openStream 0).2.ids := by decide
  obtain ⟨s, hs⟩ : ∃ s : List Byte, s = List.replicate bufferSize 1 := ⟨_, rfl⟩
  have hlen : s.length = bufferSize := hs ▸ List.length_replicate
  have hread := hall (fun _ => 0) (oneWrite s) ⟨by decide, hid, trivial⟩ 1
    (ids_oneWrite _ s ▸ hid) []
  have hheld := (readStream_writeLong_iff hopen hid hlen.ge (hlen ▸ by decide) []).mp hread
  have hone : (1 : Byte) ∈ memory (fun _ => 0) bufferSize := by
    rw [hlen, hs] at hheld
    exact hheld ▸ List.mem_replicate.mpr ⟨by decide, rfl⟩
  obtain ⟨-, -, hzero⟩ := List.mem_map.mp hone
  exact absurd hzero (by decide)

end TreeStreamWriter

end Xklee
