/-
Files of which parts are made symbolic: `native_read_file`, `klee_create_cp_file`,
`__xqx_create_new_dfile`, `getBaseName` and `__xqx_make_file_symbolic` of
`runtime/POSIX/fd_init.c`.

Offsets and lengths are unsigned numbers of 32 bits. Sums of them wrap around, but not where they
are added to an address. A text is the list of its characters without the zero that ends it. `none`
is undefined behaviour: an access outside of a buffer or an array, an overflow of an `int`, a null
pointer, and a size that `klee_make_symbolic` refuses. Memory is taken not to run out.
-/
import Mathlib.Algebra.Order.Ring.Int
import Mathlib.Data.Int.Notation
import Xklee.Data.Buffer

set_option autoImplicit false

namespace Xklee

/-- A byte of memory: a value, or a byte of a symbolic object. -/
inductive MemByte where
  | concrete (value : BitVec 8)
  | symbolic (name : List Char) (index : ℕ)
deriving DecidableEq, Repr

/-- `xqx_sym_buf_t`. -/
structure XqxSymBuf where
  offset : BitVec 32
  length : BitVec 32
deriving DecidableEq, Repr

inductive FillMethod where
  | fill_concrete | fill_assume | fill_sym
deriving DecidableEq, Repr

def SYM_BUF_SIZE : ℕ := 1024

/-- `xqx_make_sym_t`. -/
structure XqxMakeSym where
  path : Option (List Char)
  num : BitVec 32
  fill_method : FillMethod
  sym_buf : Fin SYM_BUF_SIZE → XqxSymBuf

/-- `p->sym_buf[k]`. -/
def XqxMakeSym.part (p : XqxMakeSym) (k : ℕ) : Option XqxSymBuf :=
  if h : k < SYM_BUF_SIZE then some (p.sym_buf ⟨k, h⟩) else none

/-- The contents of a file, and the bytes that `klee_assume` makes equal to others. -/
structure FileBytes where
  contents : List MemByte
  assumed : List (ℕ × MemByte)
deriving DecidableEq, Repr

/-- How `__xqx_make_file_symbolic` ends: with a warning and an early return, or not. -/
structure Filled where
  rejected : Bool
  bytes : FileBytes
deriving DecidableEq, Repr

/-- A file of the operating system: its bytes, whether it can be opened, and what `read` returns at
a position. -/
structure OsFile where
  data : List (BitVec 8)
  canOpen : Bool
  read : ℕ → ℤ

/-- A file that `klee_create_cp_file` made. -/
structure CpFile where
  path : List Char
  size : BitVec 32
  rejected : Bool
  bytes : FileBytes

namespace MakeSymbolic

/-! ## `__xqx_make_file_symbolic` -/

/-- Where `getBaseName` stops, going back from an index: at a `/`, or at the start. -/
def lastSlash (path : List Char) : ℕ → ℕ
  | 0 => 0
  | p + 1 => if path[p + 1]? = some '/' then p + 1 else lastSlash path p

/-- `getBaseName`. A file in the root directory keeps its `/`. -/
def getBaseName (path : List Char) : Option (List Char) :=
  if path.length = 0 then none
  else
    let p := lastSlash path path.length
    some (if p = 0 then path else path.drop (p + 1))

/-- `klee_make_symbolic(addr, size, name)` for a buffer, which has to be as long. -/
def klee_make_symbolic (buf : List MemByte) (size : ℕ) (name : List Char) : Option (List MemByte) :=
  if size = buf.length then some (buf.mapIdx fun i _ => .symbolic name i) else none

/-- `klee_assume(dfile->contents[j] == orig_content[j])`. -/
def assumeByte (orig_content : List MemByte) (c : FileBytes) (j : ℕ) : Option FileBytes :=
  match c.contents[j]?, orig_content[j]? with
  | some _, some b => some { c with assumed := c.assumed ++ [(j, b)] }
  | _, _ => none

/-- `p->sym_buf[i].offset + p->sym_buf[i].length > dfile->size`. -/
def outOfBound (part : XqxSymBuf) (size : BitVec 32) : Bool :=
  size.ult (part.offset + part.length)

def fill_concrete (path : List Char) (size : BitVec 32) (orig_content : List MemByte)
    (part : XqxSymBuf) (c : FileBytes) : Option Filled :=
  (klee_make_symbolic c.contents size.toNat path).bind fun contents =>
    if outOfBound part size then some ⟨true, { c with contents := contents }⟩
    else
      (Buffer.copy contents 0 orig_content 0 (part.offset - 1).toNat).bind fun contents =>
        -- the address is a sum without wrap around, the number of bytes is not
        let j := part.offset.toNat + part.length.toNat
        (Buffer.copy contents j orig_content j (size - part.offset - part.length).toNat).map
          fun contents => ⟨false, { c with contents := contents }⟩

def fill_assume (path : List Char) (size : BitVec 32) (orig_content : List MemByte)
    (part : XqxSymBuf) (c : FileBytes) : Option Filled :=
  (klee_make_symbolic c.contents size.toNat path).bind fun contents =>
    let c := { c with contents := contents }
    if outOfBound part size then some ⟨true, c⟩
    else
      ((List.range part.offset.toNat).foldlM (assumeByte orig_content) c).bind fun c =>
        let j := (part.offset + part.length).toNat
        ((List.range' j (size.toNat - j)).foldlM (assumeByte orig_content) c).map
          fun c => ⟨false, c⟩

/-- `sprintf(symName, "%s%d", name, offset)`, for a buffer of 256 characters. -/
def symName (name : List Char) (offset : BitVec 32) : Option (List Char) :=
  let text := name ++ (toString offset.toInt).toList
  if text.length < 256 then some text else none

/-- The body of the loop of `fill_sym`: one part. -/
def fillPart (name : List Char) (orig_content : List MemByte) (p : XqxMakeSym)
    (contents : List MemByte) (k : ℕ) : Option (List MemByte) :=
  (p.part k).bind fun part =>
    let symbuf := List.replicate part.length.toNat (MemByte.concrete 0)
    (Buffer.copy symbuf 0 orig_content part.offset.toNat part.length.toNat).bind fun symbuf =>
      (symName name part.offset).bind fun symName =>
        (klee_make_symbolic symbuf part.length.toNat symName).bind fun symbuf =>
          Buffer.copy contents part.offset.toNat symbuf 0 part.length.toNat

def fill_sym (name : List Char) (size : BitVec 32) (orig_content : List MemByte)
    (p : XqxMakeSym) (part : XqxSymBuf) (c : FileBytes) : Option Filled :=
  (Buffer.copy c.contents 0 orig_content 0 size.toNat).bind fun contents =>
    if outOfBound part size then some ⟨true, { c with contents := contents }⟩
    else
      ((List.range p.num.toNat).foldlM (fillPart name orig_content p) contents).map
        fun contents => ⟨false, { c with contents := contents }⟩

/-- The body of the loop over `sym_info`. -/
def fill (path name : List Char) (size : BitVec 32) (orig_content : List MemByte) (p : XqxMakeSym)
    (i : ℕ) (c : FileBytes) : Option Filled :=
  (p.part i).bind fun part =>
    match p.fill_method with
    | .fill_concrete => fill_concrete path size orig_content part c
    | .fill_assume => fill_assume path size orig_content part c
    | .fill_sym => fill_sym name size orig_content p part c

/-- The loop over `sym_info`, which ends when a part is out of bounds. -/
def fillAll (path name : List Char) (size : BitVec 32) (orig_content : List MemByte) :
    List XqxMakeSym → ℕ → FileBytes → Option Filled
  | [], _, c => some ⟨false, c⟩
  | p :: rest, i, c =>
      (fill path name size orig_content p i c).bind fun r =>
        if r.rejected then some r else fillAll path name size orig_content rest (i + 1) r.bytes

/-- `__xqx_make_file_symbolic`. -/
def make_file_symbolic (path : List Char) (size : BitVec 32) (orig_content : List MemByte)
    (sym_info : List XqxMakeSym) (c : FileBytes) : Option Filled :=
  (getBaseName path).bind fun name => fillAll path name size orig_content sym_info 0 c

/-! ## `klee_create_cp_file` -/

/-- `__xqx_create_new_dfile` for contents that are given. The name of the file and `-stat` have to
fit in 256 characters. -/
def create_new_dfile (path : List Char) (size : BitVec 32) (contents : List MemByte)
    (sym_infos : List XqxMakeSym) : Option Filled :=
  if path.length + 6 ≤ 256 then
    (Buffer.copy (List.replicate size.toNat (.concrete 0)) 0 contents 0 size.toNat).bind
      fun original_file =>
        if sym_infos = [] then some ⟨false, ⟨contents, []⟩⟩
        else make_file_symbolic path size original_file sym_infos ⟨contents, []⟩
  else none

/-- The loop of `native_read_file`. `cnt` is an `int`. The fuel is the number of rounds that the
loop may take at most. -/
def readLoop (f : OsFile) : ℕ → ℕ → List (BitVec 8) → Option (List (BitVec 8))
  | 0, _, buf => some buf
  | fuel + 1, cnt, buf =>
      if cnt < f.data.length then
        let rd := f.read cnt
        if rd ≤ 0 then some buf
        else
          (Buffer.copy buf cnt f.data cnt rd.toNat).bind fun buf =>
            if cnt + rd.toNat < 2 ^ 31 then readLoop f fuel (cnt + rd.toNat) buf else none
      else some buf

/-- `native_read_file`: the buffer, and the size as an `int`. Inside, `none` is the result -1.
`junk` is what `malloc` returns. -/
def native_read_file (os : Option OsFile) (junk : ℕ → BitVec 8) :
    Option (Option (List (BitVec 8) × BitVec 32)) :=
  match os with
  | none => some none
  | some f =>
      if f.canOpen then
        (readLoop f f.data.length 0 ((List.range f.data.length).map junk)).map fun buf =>
          some (buf, BitVec.ofNat 32 f.data.length)
      else some none

/-- `klee_create_cp_file`. `used` says which of the files are there, and the result is the index of
the new one and the file. Inside, `none` is a null pointer. -/
def klee_create_cp_file (os : Option OsFile) (junk : ℕ → BitVec 8) (used : List Bool)
    (sym_parts : XqxMakeSym) (path : List Char) : Option (Option (ℕ × CpFile)) :=
  (native_read_file os junk).bind fun
    | none => some none
    | some (buf, fsize) =>
        if fsize.slt 0 then some none
        else
          match used.findIdx? (!·) with
          | none => some none
          | some k =>
              -- the message about the parts reads all of them
              if sym_parts.num.toNat ≤ SYM_BUF_SIZE then
                (create_new_dfile path fsize (buf.map .concrete) [sym_parts]).map fun r =>
                  some (k, ⟨path, fsize, r.rejected, r.bytes⟩)
              else none

/-! ## What is expected of a file -/

/-- A part covers the byte. -/
def Covered (p : XqxMakeSym) (j : ℕ) : Prop :=
  ∃ k < p.num.toNat, ∃ part, p.part k = some part
    ∧ part.offset.toNat ≤ j ∧ j < part.offset.toNat + part.length.toNat

/-- The contents when the bytes of a set are symbolic, and the others are those of the file. -/
def Symbolised (data : List (BitVec 8)) (covered : ℕ → Prop) (c : FileBytes) : Prop :=
  c.contents.length = data.length ∧ ∀ j b, data[j]? = some b →
    (covered j → (∃ name i, c.contents[j]? = some (.symbolic name i))
      ∧ ∀ b', (j, b') ∉ c.assumed)
    ∧ (¬covered j → c.contents[j]? = some (.concrete b) ∨ (j, .concrete b) ∈ c.assumed)

/-- A file that is rejected is left as it is. Any other one is symbolic where a part covers it. -/
def Right (data : List (BitVec 8)) (p : XqxMakeSym) (r : Filled) : Prop :=
  if r.rejected then r.bytes = ⟨data.map .concrete, []⟩
  else Symbolised data (Covered p) r.bytes

/-- The call has a result, and the file that it creates, if any, is right. -/
def Meets (os : Option OsFile) (junk : ℕ → BitVec 8) (used : List Bool) (sym_parts : XqxMakeSym)
    (path : List Char) : Prop :=
  ∃ r, klee_create_cp_file os junk used sym_parts path = some r
    ∧ ∀ f ∈ os, ∀ k file, r = some (k, file) →
      Right f.data sym_parts ⟨file.rejected, file.bytes⟩

/-- What the operating system promises for a file that does not change: `read` returns some bytes
up to the end of the file, and no more than there are. -/
def Documented (f : OsFile) : Prop :=
  ∀ p < f.data.length, 0 < f.read p ∧ f.read p ≤ (f.data.length - p : ℕ)

/-- When a file of some size is filled as it should be. -/
def Fillable (size : ℕ) (name : List Char) (p : XqxMakeSym) : Prop :=
  ∀ part, p.part 0 = some part →
    let offset := part.offset.toNat
    let length := part.length.toNat
    match p.fill_method with
    | .fill_concrete =>
        if size < (offset + length) % 2 ^ 32 then size = 0
        else 1 ≤ offset ∧ offset + length ≤ size
          ∧ ∀ j < size, Covered p j ↔ offset - 1 ≤ j ∧ j < offset + length
    | .fill_assume =>
        if size < (offset + length) % 2 ^ 32 then size = 0
        else offset ≤ size ∧ ∀ j < size, Covered p j ↔ offset ≤ j ∧ j < (offset + length) % 2 ^ 32
    | .fill_sym =>
        size < (offset + length) % 2 ^ 32
          ∨ ∀ k < p.num.toNat, ∀ part', p.part k = some part' →
            part'.offset.toNat + part'.length.toNat ≤ size
              ∧ (name ++ (toString part'.offset.toInt).toList).length < 256

/-- When the call is right: no file is created, or its size is an `int`, the path fits in the
buffer, there are no more parts than the table holds, and the file can be filled. -/
def Regular (os : Option OsFile) (used : List Bool) (p : XqxMakeSym) (path : List Char) : Prop :=
  ∀ f ∈ os, f.canOpen = true → f.data.length < 2 ^ 31 ∧ (false ∈ used →
    path.length + 6 ≤ 256 ∧ p.num.toNat ≤ SYM_BUF_SIZE
      ∧ ∃ name, getBaseName path = some name ∧ Fillable f.data.length name p)

end MakeSymbolic

end Xklee
