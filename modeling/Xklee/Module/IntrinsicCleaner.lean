/-
The intrinsic cleaner: `lib/Module/IntrinsicCleaner.cpp`.

The pass replaces calls of intrinsics in a basic block by plain instructions. Before the pass a
call means what the intrinsic is there for: the exact overflow of a sum or a product, and a
list of arguments that is read as a whole and written as a whole. After it the block adds or
multiplies, compares the result with the first operand, and moves the list word by word.

A block has the same effect before and after, up to every instruction in it, if and only if
the comparison is right for every product that is computed: for sums and for lists it always is.

Instructions that the pass does not look into change the locals and the memory in any way;
`Target` says what they do. The names of the new instructions are apart from those of the block.
-/
import Xklee.Data.ByteMemory
import Mathlib.Data.BitVec

set_option autoImplicit false

namespace Xklee

namespace IntrinsicCleanerPass

/-! ## States -/

/-- Integers, pointers, and the pairs that operations with overflow return, which may be
undefined in part. -/
inductive Value (bits : ℕ)
  | int (w : ℕ) (v : BitVec w)
  | pointer (a : BitVec bits)
  | pair (w : ℕ) (result : Option (BitVec w)) (overflow : Option (BitVec 1))

/-- What a block works on: its values, by their numbers, and the memory. -/
structure Frame (bits : ℕ) where
  locals : ℕ → Option (Value bits)
  memory : ByteMemory

/-- A frame and the values of the new instructions: those for the instruction `site` of the
block have numbers of their own. -/
structure State (bits : ℕ) where
  frame : Frame bits
  temps : ℕ × ℕ → Option (Value bits)

/-- The result of an execution. `stuck` stands for undefined behaviour. -/
inductive Outcome (S : Type)
  | running (s : S)
  | aborted (s : S)
  | stuck

def Outcome.bind {S T : Type} (o : Outcome S) (f : S → Outcome T) (g : S → T) : Outcome T :=
  match o with
  | running s => f s
  | aborted s => .aborted (g s)
  | stuck => .stuck

/-- One instruction after the other. -/
def execAll {I S : Type} (exec : I → S → Outcome S) : List I → S → Outcome S
  | [], s => .running s
  | i :: is, s => (exec i s).bind (execAll exec is) id

def Frame.set {bits : ℕ} (f : Frame bits) (dest : ℕ) (v : Value bits) : Frame bits :=
  { f with locals := Function.update f.locals dest (some v) }

/-- What an operation gives for two integers of one width. -/
def Frame.binary {bits : ℕ} (f : Frame bits) (op1 op2 : ℕ)
    (op : (w : ℕ) → BitVec w → BitVec w → Value bits) : Option (Value bits) :=
  match f.locals op1, f.locals op2 with
  | some (.int w x), some (.int v y) => if h : v = w then some (op w x (y.cast h)) else none
  | _, _ => none

/-! ## Instructions -/

/-- A call of an intrinsic, by its name. -/
inductive IntrinsicCall
  | vastart (id : ℕ)
  | vaend (id : ℕ)
  | vacopy (dst src : ℕ)
  | uadd_with_overflow (dest op1 op2 : ℕ)
  | umul_with_overflow (dest op1 op2 : ℕ)
  | dbg_value
  | dbg_declare
  | trap
  | other (id : ℕ)

/-- An instruction of the block before the pass. -/
inductive SourceInstruction
  | plain (id : ℕ)
  | call (ii : IntrinsicCall)

/-- A value of the block or of a new instruction. -/
inductive Name
  | named (n : ℕ)
  | temp (site i : ℕ)

/-- An instruction after the pass. -/
inductive Instruction
  | plain (id : ℕ)
  | call (ii : IntrinsicCall)
  | add (dest op1 op2 : Name)
  | mul (dest op1 op2 : Name)
  | icmpULT (dest op1 op2 : Name)
  /-- `insertvalue` into a value or into `undef`. -/
  | insertValue (dest : Name) (aggregate : Option Name) (value : Name) (index : ℕ)
  | pointerCast (dest op : Name)
  | load (dest : Name) (bytes : ℕ) (pointer : Name)
  | store (value : Name) (bytes : ℕ) (pointer : Name)
  /-- `getelementptr` by one element of so many bytes. -/
  | getElementPtr (dest pointer : Name) (bytes : ℕ)
  | callAbort
  | unreachable

/-- What the pass depends on: the size of a word, the instructions it does not look into, and
LLVM's own lowering of other intrinsics. -/
structure Target where
  WordSize : ℕ
  LowerIntrinsics : Bool
  plain : ℕ → Frame (8 * WordSize) → Outcome (Frame (8 * WordSize))
  /-- `vastart`, `vaend` and the intrinsics of `other`. -/
  intrinsic : IntrinsicCall → Frame (8 * WordSize) → Outcome (Frame (8 * WordSize))
  LowerIntrinsicCall : ℕ → List ℕ
  /-- The lowering of LLVM has the effect of the call. -/
  lower_eq : ∀ id f, execAll plain (LowerIntrinsicCall id) f = intrinsic (.other id) f

namespace Target

variable (T : Target)

abbrev bits : ℕ := 8 * T.WordSize

/-- The addresses from a pointer on. -/
def addr {bits : ℕ} (a : BitVec bits) (i : ℕ) : ℕ := (a + BitVec.ofNat bits i).toNat

/-! ## Meaning -/

/-- The bytes of a list of arguments: a pointer, or two offsets and two pointers. -/
def listSize : ℕ := if T.WordSize = 4 then 4 else 24

/-- The bytes from `src` on are read, and then written from `dst` on. -/
def copyBytes {bits : ℕ} (m : ByteMemory) (dst src : BitVec bits) (n : ℕ) : ByteMemory :=
  m.store (addr dst) (m.load (addr src) n) n

/-- What a call means. Two lists are the same or apart, so that none begins inside of the other:
`vacopy` is asked for nothing where the destination does. -/
def execCall (ii : IntrinsicCall) (f : Frame T.bits) : Outcome (Frame T.bits) :=
  match ii with
  | .vacopy dst src =>
      match f.locals dst, f.locals src with
      | some (.pointer d), some (.pointer s) =>
          if 0 < (d - s).toNat ∧ (d - s).toNat < T.listSize then .stuck
          else .running { f with memory := copyBytes f.memory d s T.listSize }
      | _, _ => .stuck
  | .uadd_with_overflow dest op1 op2 =>
      match f.binary op1 op2 fun w x y => .pair w (some (x + y))
          (some (BitVec.ofBool (2 ^ w ≤ x.toNat + y.toNat))) with
      | some v => .running (f.set dest v)
      | none => .stuck
  | .umul_with_overflow dest op1 op2 =>
      match f.binary op1 op2 fun w x y => .pair w (some (x * y))
          (some (BitVec.ofBool (2 ^ w ≤ x.toNat * y.toNat))) with
      | some v => .running (f.set dest v)
      | none => .stuck
  | .dbg_value => .running f
  | .dbg_declare => .running f
  | .trap => .aborted f
  | ii => T.intrinsic ii f

/-- An instruction before the pass. -/
def execSource : SourceInstruction → Frame T.bits → Outcome (Frame T.bits)
  | .plain id, f => T.plain id f
  | .call ii, f => T.execCall ii f

end Target

def State.get {bits : ℕ} (s : State bits) : Name → Option (Value bits)
  | .named n => s.frame.locals n
  | .temp site i => s.temps (site, i)

def State.set {bits : ℕ} (s : State bits) (dest : Name) (v : Value bits) : State bits :=
  match dest with
  | .named n => { s with frame := s.frame.set n v }
  | .temp site i => { s with temps := Function.update s.temps (site, i) (some v) }

/-- A frame that runs on, in a state that keeps its other values. -/
def Outcome.inState {bits : ℕ} (o : Outcome (Frame bits)) (s : State bits) :
    Outcome (State bits) :=
  match o with
  | running f => .running { s with frame := f }
  | aborted f => .aborted { s with frame := f }
  | stuck => .stuck

namespace Target

variable (T : Target)

/-- An instruction on two integers of one width. -/
def execBinary {bits : ℕ} (op : (w : ℕ) → BitVec w → BitVec w → Value bits) (dest op1 op2 : Name)
    (s : State bits) : Outcome (State bits) :=
  match s.get op1, s.get op2 with
  | some (.int w x), some (.int v y) =>
      if h : v = w then .running (s.set dest (op w x (y.cast h))) else .stuck
  | _, _ => .stuck

/-- An instruction after the pass. -/
def exec : Instruction → State T.bits → Outcome (State T.bits)
  | .plain id, s => (T.plain id s.frame).inState s
  | .call ii, s => (T.execCall ii s.frame).inState s
  | .add dest op1 op2, s => execBinary (fun w x y => .int w (x + y)) dest op1 op2 s
  | .mul dest op1 op2, s => execBinary (fun w x y => .int w (x * y)) dest op1 op2 s
  | .icmpULT dest op1 op2, s =>
      execBinary (fun _ x y => .int 1 (BitVec.ofBool (x < y))) dest op1 op2 s
  | .insertValue dest none value 0, s =>
      match s.get value with
      | some (.int w x) => .running (s.set dest (.pair w (some x) none))
      | _ => .stuck
  | .insertValue dest (some aggregate) value 1, s =>
      match s.get aggregate, s.get value with
      | some (.pair w result _), some (.int 1 b) =>
          .running (s.set dest (.pair w result (some b)))
      | _, _ => .stuck
  | .insertValue .., _ => .stuck
  | .pointerCast dest op, s =>
      match s.get op with
      | some (.pointer a) => .running (s.set dest (.pointer a))
      | _ => .stuck
  | .load dest bytes pointer, s =>
      match s.get pointer with
      | some (.pointer a) => .running (s.set dest (.int (8 * bytes) (s.frame.memory.load (addr a) bytes)))
      | _ => .stuck
  | .store value bytes pointer, s =>
      match s.get value, s.get pointer with
      | some (.int _ x), some (.pointer a) =>
          .running { s with frame :=
            { s.frame with memory := s.frame.memory.store (addr a) x bytes } }
      | _, _ => .stuck
  | .getElementPtr dest pointer bytes, s =>
      match s.get pointer with
      | some (.pointer a) => .running (s.set dest (.pointer (a + BitVec.ofNat T.bits bytes)))
      | _ => .stuck
  | .callAbort, s => .aborted s
  | .unreachable, _ => .stuck

/-! ## The pass -/

/-- The code for `vacopy`: the list is one pointer or three words of 64 bits. -/
def lowerVacopy (site dst src : ℕ) : Option (List Instruction) :=
  let t := Name.temp site
  if T.WordSize = 4 then
    some [.pointerCast (t 0) (.named dst), .pointerCast (t 1) (.named src),
      .load (t 2) 4 (t 1), .store (t 2) 4 (t 0)]
  else if T.WordSize = 8 then
    some [.pointerCast (t 0) (.named dst), .pointerCast (t 1) (.named src),
      .load (t 2) 8 (t 1), .store (t 2) 8 (t 0),
      .getElementPtr (t 3) (t 0) 8, .getElementPtr (t 4) (t 1) 8,
      .load (t 5) 8 (t 4), .store (t 5) 8 (t 3),
      .getElementPtr (t 6) (t 3) 8, .getElementPtr (t 7) (t 4) 8,
      .load (t 8) 8 (t 7), .store (t 8) 8 (t 6)]
  else none

/-- The code for an operation with overflow. Its last instruction takes the place of the call
for all uses. -/
def lowerOverflow (op : Name → Name → Name → Instruction) (site dest op1 op2 : ℕ) :
    List Instruction :=
  let t := Name.temp site
  [op (t 0) (.named op1) (.named op2), .icmpULT (t 1) (t 0) (.named op1),
    .insertValue (t 2) none (t 0) 0, .insertValue (.named dest) (some (t 2)) (t 1) 1]

/-- The body of the loop of `runOnBasicBlock`. -/
def lower (site : ℕ) : SourceInstruction → Option (List Instruction)
  | .plain id => some [.plain id]
  | .call (.vastart id) => some [.call (.vastart id)]
  | .call (.vaend id) => some [.call (.vaend id)]
  | .call (.vacopy dst src) => T.lowerVacopy site dst src
  | .call (.uadd_with_overflow dest op1 op2) => some (lowerOverflow .add site dest op1 op2)
  | .call (.umul_with_overflow dest op1 op2) => some (lowerOverflow .mul site dest op1 op2)
  | .call .dbg_value => some []
  | .call .dbg_declare => some []
  | .call .trap => some [.callAbort, .unreachable]
  | .call (.other id) =>
      if T.LowerIntrinsics then some ((T.LowerIntrinsicCall id).map .plain)
      else some [.call (.other id)]

/-- `runOnBasicBlock`, from the instruction with number `site` on. -/
def runOnBasicBlock : ℕ → List SourceInstruction → Option (List Instruction)
  | _, [] => some []
  | site, i :: is =>
      (T.lower site i).bind fun code => (runOnBasicBlock (site + 1) is).map fun rest => code ++ rest

/-! ## What is asked of the pass -/

/-- The code after the pass ends with the frame of the code before it. Where that is undefined,
nothing is asked. -/
def SameResult {bits : ℕ} : Outcome (Frame bits) → Outcome (State bits) → Prop
  | .stuck, _ => True
  | .running f, .running s => s.frame = f
  | .aborted f, .aborted s => s.frame = f
  | _, _ => False

/-- Up to any instruction, the block has the same effect before and after the pass. -/
def PreservesMeaning (block : List SourceInstruction) (f : Frame T.bits) : Prop :=
  ∀ n, ∃ code, T.runOnBasicBlock 0 (block.take n) = some code
    ∧ SameResult (execAll T.execSource (block.take n) f)
      (execAll T.exec code ⟨f, fun _ => none⟩)

/-- The products for which the comparison is the overflow: a factor that is zero is the first
one, and where the product does not fit, it passes a multiple of `2 ^ w` with the last addition
of the first factor. -/
def MulExact {w v : ℕ} (x : BitVec w) (y : BitVec v) : Prop :=
  x.toNat = 0 ∨ 0 < y.toNat ∧ (x.toNat * y.toNat < 2 ^ w
    ∨ x.toNat * (y.toNat - 1) / 2 ^ w < x.toNat * y.toNat / 2 ^ w)

/-- The operands of a product are such. -/
def CallExact {bits : ℕ} (i : SourceInstruction) (f : Frame bits) : Prop :=
  ∀ dest op1 op2 w x y, i = .call (.umul_with_overflow dest op1 op2) →
    f.locals op1 = some (.int w x) → f.locals op2 = some (.int w y) → MulExact x y

/-- All products of the block are such, with the values that the block gets to. -/
def BlockExact (block : List SourceInstruction) (f : Frame T.bits) : Prop :=
  ∀ front i back f', block = front ++ i :: back →
    execAll T.execSource front f = .running f' → CallExact i f'

/-! ## The comparison -/

theorem add_lt_iff {w : ℕ} (x y : BitVec w) : x + y < x ↔ 2 ^ w ≤ x.toNat + y.toNat := by
  have hx := x.isLt
  have hy := y.isLt
  rw [BitVec.lt_def, BitVec.toNat_add]
  constructor
  · intro hlt
    by_contra hfits
    rw [Nat.mod_eq_of_lt (by omega)] at hlt
    omega
  · intro hover
    rw [Nat.mod_eq_sub_mod hover, Nat.mod_eq_of_lt (by omega)]
    omega

/-- Subtracting `a` crosses a multiple of `n` if the rest is smaller. -/
theorem sub_div_lt_iff {a p n : ℕ} (hn : 0 < n) (hp : a ≤ p) :
    (p - a) / n < p / n ↔ p % n < a := by
  have hsplit := Nat.div_add_mod p n
  have hmod := Nat.mod_lt p hn
  rw [Nat.div_lt_iff_lt_mul hn, Nat.mul_comm (p / n) n]
  omega

theorem mul_lt_iff {w : ℕ} (x y : BitVec w) :
    (x * y < x ↔ 2 ^ w ≤ x.toNat * y.toNat) ↔ MulExact x y := by
  have hx := x.isLt
  have hpos := Nat.two_pow_pos w
  rw [BitVec.lt_def, BitVec.toNat_mul]
  unfold MulExact
  obtain hzero | hxpos := Nat.eq_zero_or_pos x.toNat
  · rw [hzero, Nat.zero_mul, Nat.zero_mod]
    exact iff_of_true (by omega) (.inl rfl)
  rw [or_iff_right hxpos.ne']
  obtain hzero | hypos := Nat.eq_zero_or_pos y.toNat
  · rw [hzero, Nat.mul_zero, Nat.zero_mod]
    exact iff_of_false (fun h => absurd (h.mp hxpos) (by omega)) (fun h => absurd h.1 (by decide))
  rw [and_iff_right hypos]
  have hle : x.toNat ≤ x.toNat * y.toNat := Nat.le_mul_of_pos_right _ hypos
  obtain hfits | hover := Nat.lt_or_ge (x.toNat * y.toNat) (2 ^ w)
  · rw [Nat.mod_eq_of_lt hfits]
    exact iff_of_true (by omega) (.inl hfits)
  · rw [Nat.mul_sub_one, sub_div_lt_iff hpos hle, or_iff_right (Nat.not_lt.mpr hover)]
    exact ⟨fun h => h.mpr hover, fun h => iff_of_true h hover⟩

/-! ## Copies -/

section Copy

variable {bits n k l : ℕ} {m : ByteMemory} {dst src a : BitVec bits}

theorem addr_inj {i j : ℕ} (hi : i < 2 ^ bits) (hj : j < 2 ^ bits) (h : addr a i = addr a j) :
    i = j := by
  have hsum := BitVec.add_right_inj a |>.mp (BitVec.eq_of_toNat_eq h)
  have hnat := congrArg BitVec.toNat hsum
  rwa [BitVec.toNat_ofNat, BitVec.toNat_ofNat, Nat.mod_eq_of_lt hi, Nat.mod_eq_of_lt hj] at hnat

theorem addr_add (a : BitVec bits) (i j : ℕ) :
    addr (a + BitVec.ofNat bits i) j = addr a (i + j) := by
  unfold addr
  rw [BitVec.add_assoc, BitVec.ofNat_add]

theorem copyBytes_at {i : ℕ} (hn : n ≤ 2 ^ bits) (hi : i < n) :
    copyBytes m dst src n (addr dst i) = m (addr src i) := by
  unfold copyBytes
  rw [ByteMemory.store_at m _ (fun j hj h => addr_inj (by omega) (by omega) h) hi,
    ByteMemory.extract_load m _ hi]

theorem copyBytes_other {x : ℕ} (h : ∀ i < n, addr dst i ≠ x) : copyBytes m dst src n x = m x :=
  ByteMemory.store_other m _ h

/-- A copy in two parts, of which the first does not write what the second reads. -/
theorem copyBytes_append (hn : k + l ≤ 2 ^ bits)
    (hapart : ∀ i < k, ∀ j < l, addr dst i ≠ addr src (k + j)) :
    copyBytes (copyBytes m dst src k) (dst + BitVec.ofNat bits k) (src + BitVec.ofNat bits k) l
      = copyBytes m dst src (k + l) := by
  funext x
  by_cases hx : ∃ i < k + l, addr dst i = x
  · obtain ⟨i, hi, rfl⟩ := hx
    rw [copyBytes_at hn hi]
    obtain hik | hik := Nat.lt_or_ge i k
    · rw [copyBytes_other, copyBytes_at (by omega) hik]
      intro j hj h
      rw [addr_add] at h
      have := addr_inj (by omega) (by omega) h
      omega
    · obtain ⟨j, rfl⟩ := Nat.exists_eq_add_of_le hik
      rw [← addr_add dst k j, copyBytes_at (by omega) (by omega), addr_add, copyBytes_other]
      exact fun i' hi' => hapart i' hi' j (by omega)
  · have hno : ∀ i < k + l, addr dst i ≠ x := fun i hi h => hx ⟨i, hi, h⟩
    rw [copyBytes_other hno, copyBytes_other, copyBytes_other fun i hi => hno i (by omega)]
    intro j hj
    rw [addr_add]
    exact hno (k + j) (by omega)

/-- Where no list begins inside of the other, a byte that is written is not one that is read
later. -/
theorem addr_ne_of_apart (h : ¬(0 < (dst - src).toNat ∧ (dst - src).toNat < n)) {i j : ℕ}
    (hij : i < j) (hj : j < n) (hn : n ≤ 2 ^ bits) : addr dst i ≠ addr src j := by
  intro heq
  have hsum : dst + BitVec.ofNat bits i = src + BitVec.ofNat bits j := BitVec.eq_of_toNat_eq heq
  have hsplit : BitVec.ofNat bits j = BitVec.ofNat bits (j - i) + BitVec.ofNat bits i := by
    rw [← BitVec.ofNat_add, Nat.sub_add_cancel hij.le]
  rw [hsplit, ← BitVec.add_assoc, BitVec.add_left_inj] at hsum
  have hdiff : (dst - src).toNat = j - i := by
    rw [hsum, BitVec.add_comm, BitVec.add_sub_cancel, BitVec.toNat_ofNat]
    exact Nat.mod_eq_of_lt (by omega)
  omega

end Copy

/-! ## One instruction -/

section Site

variable {T : Target} {s : State T.bits} {site : ℕ}

@[simp] theorem get_set_self {bits : ℕ} (s : State bits) (dest : Name) (v : Value bits) :
    (s.set dest v).get dest = some v := by
  cases dest with
  | named n => exact Function.update_self ..
  | temp site i => exact Function.update_self ..

@[simp] theorem get_set_temp_named {bits : ℕ} (s : State bits) (site i n : ℕ) (v : Value bits) :
    (s.set (.temp site i) v).get (.named n) = s.frame.locals n := rfl

theorem get_set_temp_of_ne {bits : ℕ} (s : State bits) {site i j : ℕ} (h : j ≠ i)
    (v : Value bits) : (s.set (.temp site i) v).get (.temp site j) = s.get (.temp site j) :=
  Function.update_of_ne (fun heq => h (Prod.mk.inj heq).2) ..

theorem execAll_cons {I S : Type} {exec : I → S → Outcome S} {i : I} {is : List I} {a b : S}
    (h : exec i a = .running b) : execAll exec (i :: is) a = execAll exec is b := by
  rw [execAll, h]
  rfl

theorem execBinary_running {bits : ℕ} {op : (w : ℕ) → BitVec w → BitVec w → Value bits}
    {s : State bits} {op1 op2 : Name} {w : ℕ} {x y : BitVec w} (dest : Name)
    (hx : s.get op1 = some (.int w x)) (hy : s.get op2 = some (.int w y)) :
    execBinary op dest op1 op2 s = .running (s.set dest (op w x y)) := by
  unfold execBinary
  rw [hx, hy]
  exact dif_pos rfl

theorem exec_icmpULT {op1 op2 : Name} {w : ℕ} {x y : BitVec w} (dest : Name)
    (hx : s.get op1 = some (.int w x)) (hy : s.get op2 = some (.int w y)) :
    T.exec (.icmpULT dest op1 op2) s
      = .running (s.set dest (.int 1 (BitVec.ofBool (x < y)))) := by
  show execBinary (fun _ x y => .int 1 (BitVec.ofBool (x < y))) dest op1 op2 s = _
  rw [execBinary_running dest hx hy]

theorem exec_insertFirst {value : Name} {w : ℕ} {x : BitVec w} (dest : Name)
    (hx : s.get value = some (.int w x)) :
    T.exec (.insertValue dest none value 0) s = .running (s.set dest (.pair w (some x) none)) := by
  rw [exec, hx]

theorem exec_insertSecond {aggregate value : Name} {w : ℕ} {result : Option (BitVec w)}
    {overflow : Option (BitVec 1)} {b : BitVec 1} (dest : Name)
    (hpair : s.get aggregate = some (.pair w result overflow))
    (hb : s.get value = some (.int 1 b)) :
    T.exec (.insertValue dest (some aggregate) value 1) s
      = .running (s.set dest (.pair w result (some b))) := by
  rw [exec, hpair, hb]
  rfl

/-- The code for an operation with overflow: the pair has the result and the comparison. -/
theorem execAll_lowerOverflow {op : Name → Name → Name → Instruction}
    {value : (w : ℕ) → BitVec w → BitVec w → BitVec w} {op1 op2 w : ℕ} {x y : BitVec w}
    (hop : ∀ d a b s, T.exec (op d a b) s = execBinary (fun w x y => .int w (value w x y)) d a b s)
    (hx : s.frame.locals op1 = some (.int w x)) (hy : s.frame.locals op2 = some (.int w y))
    (dest : ℕ) : ∃ t, execAll T.exec (lowerOverflow op site dest op1 op2) s = .running t
      ∧ t.frame = s.frame.set dest
        (.pair w (some (value w x y)) (some (BitVec.ofBool (value w x y < x)))) := by
  have hresult : T.exec (op (.temp site 0) (.named op1) (.named op2)) s
      = .running (s.set (.temp site 0) (.int w (value w x y))) := by
    rw [hop]
    exact execBinary_running _ hx hy
  -- the values of the four instructions, one after the other
  let s₁ := s.set (.temp site 0) (.int w (value w x y))
  let s₂ := s₁.set (.temp site 1) (.int 1 (BitVec.ofBool (value w x y < x)))
  let s₃ := s₂.set (.temp site 2) (.pair w (some (value w x y)) none)
  have hcompare : T.exec (.icmpULT (.temp site 1) (.temp site 0) (.named op1)) s₁ = .running s₂ :=
    exec_icmpULT _ (get_set_self ..) hx
  have hfirst : T.exec (.insertValue (.temp site 2) none (.temp site 0) 0) s₂ = .running s₃ := by
    apply exec_insertFirst
    rw [get_set_temp_of_ne _ (by decide), get_set_self]
  have hsecond := @exec_insertSecond T s₃ (.temp site 2) (.temp site 1) w _ _
    (BitVec.ofBool (value w x y < x)) (.named dest) (get_set_self ..) (by
      rw [get_set_temp_of_ne _ (by decide), get_set_self])
  refine ⟨s₃.set (.named dest)
    (.pair w (some (value w x y)) (some (BitVec.ofBool (value w x y < x)))), ?_, rfl⟩
  unfold lowerOverflow
  dsimp only
  rw [execAll_cons hresult, execAll_cons hcompare, execAll_cons hfirst, execAll_cons hsecond]
  rfl

/-! ### Lists of arguments -/

theorem execAll_append_eq {I S : Type} (exec : I → S → Outcome S) (is rest : List I) (a : S) :
    execAll exec (is ++ rest) a = (execAll exec is a).bind (execAll exec rest) id := by
  induction is generalizing a with
  | nil => rfl
  | cons i is ih =>
    rw [List.cons_append, execAll, execAll]
    cases exec i a with
    | running c => exact ih c
    | aborted c => rfl
    | stuck => rfl

theorem execAll_append {I S : Type} {exec : I → S → Outcome S} {is : List I} {a b : S}
    (h : execAll exec is a = .running b) (rest : List I) :
    execAll exec (is ++ rest) a = execAll exec rest b := by
  rw [execAll_append_eq, h]
  rfl

/-- The two pointers of a list, as values of new instructions. -/
theorem execAll_casts {dst src : ℕ} {d a : BitVec T.bits}
    (hd : s.frame.locals dst = some (.pointer d)) (ha : s.frame.locals src = some (.pointer a)) :
    ∃ t, execAll T.exec [.pointerCast (.temp site 0) (.named dst),
        .pointerCast (.temp site 1) (.named src)] s = .running t ∧ t.frame = s.frame
      ∧ t.get (.temp site 0) = some (.pointer d) ∧ t.get (.temp site 1) = some (.pointer a) := by
  have hfirst : T.exec (.pointerCast (.temp site 0) (.named dst)) s
      = .running (s.set (.temp site 0) (.pointer d)) := by
    rw [exec]
    show (match s.frame.locals dst with | some (.pointer a) => _ | _ => _) = _
    rw [hd]
  have hsecond : T.exec (.pointerCast (.temp site 1) (.named src))
        (s.set (.temp site 0) (.pointer d))
      = .running ((s.set (.temp site 0) (.pointer d)).set (.temp site 1) (.pointer a)) := by
    rw [exec, get_set_temp_named, ha]
  refine ⟨(s.set (.temp site 0) (.pointer d)).set (.temp site 1) (.pointer a), ?_, rfl, ?_,
    get_set_self ..⟩
  · rw [execAll_cons hfirst, execAll_cons hsecond]
    rfl
  · rw [get_set_temp_of_ne _ (by decide), get_set_self]

/-- A load and a store copy some bytes. -/
theorem execAll_copy {value pd ps : ℕ} {d a : BitVec T.bits} (n : ℕ) (hne : pd ≠ value)
    (hd : s.get (.temp site pd) = some (.pointer d))
    (ha : s.get (.temp site ps) = some (.pointer a)) :
    ∃ t, execAll T.exec [.load (.temp site value) n (.temp site ps),
        .store (.temp site value) n (.temp site pd)] s = .running t
      ∧ t.frame = { s.frame with memory := copyBytes s.frame.memory d a n }
      ∧ ∀ j ≠ value, t.get (.temp site j) = s.get (.temp site j) := by
  let s₁ := s.set (.temp site value) (.int (8 * n) (s.frame.memory.load (addr a) n))
  have hload : T.exec (.load (.temp site value) n (.temp site ps)) s = .running s₁ := by
    rw [exec, ha]
  have hstore : T.exec (.store (.temp site value) n (.temp site pd)) s₁
      = .running { s₁ with frame :=
          { s₁.frame with memory := copyBytes s₁.frame.memory d a n } } := by
    rw [exec, get_set_self, get_set_temp_of_ne _ hne, hd]
    rfl
  refine ⟨{ s₁ with frame := { s₁.frame with memory := copyBytes s₁.frame.memory d a n } }, ?_,
    rfl, fun j hj => get_set_temp_of_ne s hj _⟩
  rw [execAll_cons hload, execAll_cons hstore]
  rfl

/-- The two pointers to the next element. -/
theorem execAll_next {pd ps qd qs : ℕ} {d a : BitVec T.bits} (n : ℕ) (hps : ps ≠ qd)
    (hqs : qd ≠ qs) (hd : s.get (.temp site pd) = some (.pointer d))
    (ha : s.get (.temp site ps) = some (.pointer a)) :
    ∃ t, execAll T.exec [.getElementPtr (.temp site qd) (.temp site pd) n,
        .getElementPtr (.temp site qs) (.temp site ps) n] s = .running t ∧ t.frame = s.frame
      ∧ t.get (.temp site qd) = some (.pointer (d + BitVec.ofNat T.bits n))
      ∧ t.get (.temp site qs) = some (.pointer (a + BitVec.ofNat T.bits n)) := by
  let s₁ := s.set (.temp site qd) (.pointer (d + BitVec.ofNat T.bits n))
  have hfirst : T.exec (.getElementPtr (.temp site qd) (.temp site pd) n) s = .running s₁ := by
    rw [exec, hd]
  have hsecond : T.exec (.getElementPtr (.temp site qs) (.temp site ps) n) s₁
      = .running (s₁.set (.temp site qs) (.pointer (a + BitVec.ofNat T.bits n))) := by
    rw [exec, get_set_temp_of_ne _ hps, ha]
  refine ⟨s₁.set (.temp site qs) (.pointer (a + BitVec.ofNat T.bits n)), ?_, rfl, ?_,
    get_set_self ..⟩
  · rw [execAll_cons hfirst, execAll_cons hsecond]
    rfl
  · rw [get_set_temp_of_ne _ hqs, get_set_self]

/-- The code for `vacopy` copies the whole list. -/
theorem execAll_lowerVacopy (hword : T.WordSize = 4 ∨ T.WordSize = 8) {dst src : ℕ}
    {d a : BitVec T.bits} (hd : s.frame.locals dst = some (.pointer d))
    (ha : s.frame.locals src = some (.pointer a))
    (hapart : ¬(0 < (d - a).toNat ∧ (d - a).toNat < T.listSize)) :
    ∃ code t, T.lowerVacopy site dst src = some code ∧ execAll T.exec code s = .running t
      ∧ t.frame = { s.frame with memory := copyBytes s.frame.memory d a T.listSize } := by
  obtain ⟨s₀, hcast, hframe₀, hd₀, ha₀⟩ := @execAll_casts T s site dst src d a hd ha
  unfold lowerVacopy listSize at *
  obtain hfour | height := hword
  · obtain ⟨s₁, hcopy, hframe₁, -⟩ := execAll_copy 4 (by decide : 0 ≠ 2) hd₀ ha₀
    rw [if_pos hfour, if_pos hfour]
    refine ⟨_, s₁, rfl, ?_, by rw [hframe₁, hframe₀]⟩
    exact (execAll_append hcast _).trans hcopy
  · have hne : T.WordSize ≠ 4 := by omega
    rw [if_neg hne] at hapart
    rw [if_neg hne, if_pos height, if_neg hne]
    have hbits : 24 ≤ 2 ^ T.bits := by
      rw [bits, height]
      decide
    -- the three words, each written before the next one is read
    obtain ⟨s₁, hcopy₁, hframe₁, hkeep₁⟩ := execAll_copy 8 (by decide : 0 ≠ 2) hd₀ ha₀
    rw [← hkeep₁ 0 (by decide)] at hd₀
    rw [← hkeep₁ 1 (by decide)] at ha₀
    obtain ⟨s₂, hnext₂, hframe₂, hd₂, ha₂⟩ :=
      @execAll_next T s₁ site 0 1 3 4 d a 8 (by decide) (by decide) hd₀ ha₀
    obtain ⟨s₃, hcopy₃, hframe₃, hkeep₃⟩ := execAll_copy 8 (by decide : 3 ≠ 5) hd₂ ha₂
    rw [← hkeep₃ 3 (by decide)] at hd₂
    rw [← hkeep₃ 4 (by decide)] at ha₂
    obtain ⟨s₄, hnext₄, hframe₄, hd₄, ha₄⟩ :=
      @execAll_next T s₃ site 3 4 6 7 _ _ 8 (by decide) (by decide) hd₂ ha₂
    obtain ⟨s₅, hcopy₅, hframe₅, -⟩ := execAll_copy 8 (by decide : 6 ≠ 8) hd₄ ha₄
    refine ⟨_, s₅, rfl, ?_, ?_⟩
    · calc execAll T.exec _ s = execAll T.exec _ s₀ := execAll_append hcast _
        _ = execAll T.exec _ s₁ := execAll_append hcopy₁ _
        _ = execAll T.exec _ s₂ := execAll_append hnext₂ _
        _ = execAll T.exec _ s₃ := execAll_append hcopy₃ _
        _ = execAll T.exec _ s₄ := execAll_append hnext₄ _
        _ = .running s₅ := hcopy₅
    · have happend₁ := @copyBytes_append T.bits 8 8 s.frame.memory d a (by omega)
        fun i hi j hj => addr_ne_of_apart hapart (by omega) (by omega) hbits
      have happend₂ := @copyBytes_append T.bits 16 8 s.frame.memory d a (by omega)
        fun i hi j hj => addr_ne_of_apart hapart (by omega) (by omega) hbits
      rw [hframe₅, hframe₄, hframe₃, hframe₂, hframe₁, hframe₀]
      dsimp only
      rw [happend₁, BitVec.add_assoc, BitVec.add_assoc, ← BitVec.ofNat_add, happend₂]

/-! ### Every instruction -/

theorem sameResult_inState {bits : ℕ} (o : Outcome (Frame bits)) (s : State bits) :
    SameResult o (o.inState s) := by
  cases o with
  | running f => rfl
  | aborted f => rfl
  | stuck => trivial

/-- Instructions that the pass adds for a lowered intrinsic only work on the frame. -/
theorem execAll_plain (ids : List ℕ) (s : State T.bits) :
    execAll T.exec (ids.map .plain) s = (execAll T.plain ids s.frame).inState s := by
  induction ids generalizing s with
  | nil => rfl
  | cons id ids ih =>
    rw [List.map_cons, execAll, execAll]
    show ((T.plain id s.frame).inState s).bind _ _ = ((T.plain id s.frame).bind _ _).inState s
    cases T.plain id s.frame with
    | running f => exact ih { s with frame := f }
    | aborted f => rfl
    | stuck => rfl

theorem execAll_single {I S : Type} {exec : I → S → Outcome S} (i : I) (s : S) :
    execAll exec [i] s = exec i s := by
  rw [execAll]
  cases exec i s with
  | running t => rfl
  | aborted t => rfl
  | stuck => rfl

theorem binary_eq {bits : ℕ} {f : Frame bits} {op1 op2 w : ℕ} {x y : BitVec w}
    (hx : f.locals op1 = some (.int w x)) (hy : f.locals op2 = some (.int w y))
    (op : (w : ℕ) → BitVec w → BitVec w → Value bits) :
    f.binary op1 op2 op = some (op w x y) := by
  unfold Frame.binary
  rw [hx, hy]
  exact dif_pos rfl

/-- The operands are two integers of one width, or there is no result. -/
theorem binary_cases {bits : ℕ} (f : Frame bits) (op1 op2 : ℕ) :
    (∃ w x y, f.locals op1 = some (.int w x) ∧ f.locals op2 = some (.int w y))
      ∨ ∀ op, f.binary op1 op2 op = none := by
  unfold Frame.binary
  split
  next w x v y hx hy =>
    by_cases hw : v = w
    · subst hw
      exact .inl ⟨v, x, y, hx, hy⟩
    · exact .inr fun op => dif_neg hw
  next => exact .inr fun op => rfl

theorem execCall_uadd {f : Frame T.bits} {op1 op2 w : ℕ} {x y : BitVec w} (dest : ℕ)
    (hx : f.locals op1 = some (.int w x)) (hy : f.locals op2 = some (.int w y)) :
    T.execCall (.uadd_with_overflow dest op1 op2) f
      = .running (f.set dest (.pair w (some (x + y))
        (some (BitVec.ofBool (2 ^ w ≤ x.toNat + y.toNat))))) := by
  unfold execCall
  dsimp only
  rw [binary_eq hx hy]

theorem execCall_umul {f : Frame T.bits} {op1 op2 w : ℕ} {x y : BitVec w} (dest : ℕ)
    (hx : f.locals op1 = some (.int w x)) (hy : f.locals op2 = some (.int w y)) :
    T.execCall (.umul_with_overflow dest op1 op2) f
      = .running (f.set dest (.pair w (some (x * y))
        (some (BitVec.ofBool (2 ^ w ≤ x.toNat * y.toNat))))) := by
  unfold execCall
  dsimp only
  rw [binary_eq hx hy]

theorem exists_lowerVacopy (hword : T.WordSize = 4 ∨ T.WordSize = 8) (dst src : ℕ) :
    ∃ code, T.lowerVacopy site dst src = some code := by
  unfold lowerVacopy
  obtain hfour | height := hword
  · exact ⟨_, if_pos hfour⟩
  · have hne : T.WordSize ≠ 4 := by omega
    exact ⟨_, (if_neg hne).trans (if_pos height)⟩

theorem execCall_vacopy {f : Frame T.bits} {dst src : ℕ} {d a : BitVec T.bits}
    (hd : f.locals dst = some (.pointer d)) (ha : f.locals src = some (.pointer a)) :
    T.execCall (.vacopy dst src) f
      = if 0 < (d - a).toNat ∧ (d - a).toNat < T.listSize then .stuck
        else .running { f with memory := copyBytes f.memory d a T.listSize } := by
  unfold execCall
  dsimp only
  rw [hd, ha]

theorem vacopy_cases (f : Frame T.bits) (dst src : ℕ) :
    (∃ d a, f.locals dst = some (.pointer d) ∧ f.locals src = some (.pointer a))
      ∨ T.execCall (.vacopy dst src) f = .stuck := by
  unfold execCall
  dsimp only
  split
  next d a hd ha => exact .inl ⟨d, a, hd, ha⟩
  next => exact .inr rfl

/-- The code for a product ends with the frame of the call if and only if the comparison is
right. -/
theorem sameResult_umul_iff {dest op1 op2 w : ℕ} {x y : BitVec w}
    (hx : s.frame.locals op1 = some (.int w x)) (hy : s.frame.locals op2 = some (.int w y)) :
    SameResult (T.execCall (.umul_with_overflow dest op1 op2) s.frame)
        (execAll T.exec (lowerOverflow .mul site dest op1 op2) s) ↔ MulExact x y := by
  obtain ⟨t, ht, hframe⟩ := @execAll_lowerOverflow T s site .mul (fun _ x y => x * y) op1 op2 w x y
    (fun d a b s => rfl) hx hy dest
  rw [execCall_umul dest hx hy, ht, ← mul_lt_iff]
  show t.frame = _ ↔ _
  rw [hframe]
  constructor
  · intro heq
    have hpair := congrFun (congrArg Frame.locals heq) dest
    simp only [Frame.set, Function.update_self, Option.some.injEq, Value.pair.injEq, heq_eq_eq,
      true_and, BitVec.ofBool_eq_iff_eq, decide_eq_decide] at hpair
    exact hpair
  · intro hiff
    rw [decide_eq_decide.mpr hiff]

/-- What the pass puts in place of an instruction. -/
theorem lower_sameResult (hword : T.WordSize = 4 ∨ T.WordSize = 8) (i : SourceInstruction)
    (s : State T.bits) (site : ℕ) (hexact : CallExact i s.frame) :
    ∃ code, T.lower site i = some code
      ∧ SameResult (T.execSource i s.frame) (execAll T.exec code s) := by
  cases i with
  | plain id =>
    refine ⟨_, rfl, ?_⟩
    rw [execAll_single]
    exact sameResult_inState _ s
  | call ii =>
    cases ii with
    | vastart id =>
      refine ⟨_, rfl, ?_⟩
      rw [execAll_single]
      exact sameResult_inState _ s
    | vaend id =>
      refine ⟨_, rfl, ?_⟩
      rw [execAll_single]
      exact sameResult_inState _ s
    | vacopy dst src =>
      rw [execSource]
      obtain ⟨d, a, hd, ha⟩ | hstuck := @vacopy_cases T s.frame dst src
      · by_cases hinside : 0 < (d - a).toNat ∧ (d - a).toNat < T.listSize
        · obtain ⟨code, hcode⟩ := @exists_lowerVacopy T site hword dst src
          refine ⟨code, hcode, ?_⟩
          rw [execCall_vacopy hd ha, if_pos hinside]
          trivial
        · obtain ⟨code, t, hcode, ht, hframe⟩ :=
            @execAll_lowerVacopy T s site hword dst src d a hd ha hinside
          refine ⟨code, hcode, ?_⟩
          rw [execCall_vacopy hd ha, if_neg hinside, ht]
          exact hframe
      · obtain ⟨code, hcode⟩ := @exists_lowerVacopy T site hword dst src
        refine ⟨code, hcode, ?_⟩
        rw [hstuck]
        trivial
    | uadd_with_overflow dest op1 op2 =>
      refine ⟨_, rfl, ?_⟩
      rw [execSource]
      obtain ⟨w, x, y, hx, hy⟩ | hnone := binary_cases s.frame op1 op2
      · obtain ⟨t, ht, hframe⟩ := @execAll_lowerOverflow T s site .add (fun _ x y => x + y)
          op1 op2 w x y (fun d a b s => rfl) hx hy dest
        rw [execCall_uadd dest hx hy, ht]
        show t.frame = _
        rw [hframe, decide_eq_decide.mpr (add_lt_iff x y)]
      · unfold execCall
        dsimp only
        rw [hnone]
        trivial
    | umul_with_overflow dest op1 op2 =>
      refine ⟨_, rfl, ?_⟩
      rw [execSource]
      obtain ⟨w, x, y, hx, hy⟩ | hnone := binary_cases s.frame op1 op2
      · exact (sameResult_umul_iff hx hy).mpr (hexact dest op1 op2 w x y rfl hx hy)
      · unfold execCall
        dsimp only
        rw [hnone]
        trivial
    | dbg_value => exact ⟨[], rfl, rfl⟩
    | dbg_declare => exact ⟨[], rfl, rfl⟩
    | trap => exact ⟨_, rfl, rfl⟩
    | other id =>
      rw [lower]
      by_cases hlower : T.LowerIntrinsics = true
      · refine ⟨_, if_pos hlower, ?_⟩
        rw [execAll_plain, T.lower_eq]
        exact sameResult_inState _ s
      · refine ⟨_, if_neg hlower, ?_⟩
        rw [execAll_single]
        exact sameResult_inState _ s

/-! ## Blocks -/

theorem exists_lower (hword : T.WordSize = 4 ∨ T.WordSize = 8) (site : ℕ) (i : SourceInstruction) :
    ∃ code, T.lower site i = some code := by
  unfold lower
  split
  case h_4 dst src => exact exists_lowerVacopy hword dst src
  case h_10 id =>
    split
    · exact ⟨_, rfl⟩
    · exact ⟨_, rfl⟩
  all_goals exact ⟨_, rfl⟩

/-- The assertion about the word size passes, so the pass ends with a block. -/
theorem exists_runOnBasicBlock (hword : T.WordSize = 4 ∨ T.WordSize = 8) (site : ℕ)
    (block : List SourceInstruction) : ∃ code, T.runOnBasicBlock site block = some code := by
  induction block generalizing site with
  | nil => exact ⟨[], rfl⟩
  | cons i is ih =>
    obtain ⟨code, hcode⟩ := exists_lower hword site i
    obtain ⟨rest, hrest⟩ := ih (site + 1)
    refine ⟨code ++ rest, ?_⟩
    rw [runOnBasicBlock, hcode, Option.bind_some, hrest]
    rfl

theorem runOnBasicBlock_append {block rest : List SourceInstruction} {code code' : List Instruction}
    (h : T.runOnBasicBlock site block = some code)
    (h' : T.runOnBasicBlock (site + block.length) rest = some code') :
    T.runOnBasicBlock site (block ++ rest) = some (code ++ code') := by
  induction block generalizing site code with
  | nil =>
    obtain rfl := Option.some.inj h
    exact h'
  | cons i is ih =>
    rw [List.length_cons] at h'
    unfold runOnBasicBlock at h
    cases hi : T.lower site i with
    | none =>
      rw [hi] at h
      cases h
    | some first =>
      cases his : T.runOnBasicBlock (site + 1) is with
      | none =>
        rw [hi, his] at h
        cases h
      | some tail =>
        rw [hi, his] at h
        obtain rfl := Option.some.inj h
        have hrest := ih his (by rwa [Nat.add_right_comm, Nat.add_assoc])
        rw [List.cons_append, runOnBasicBlock, hi, Option.bind_some, hrest, List.append_assoc]
        rfl

/-- The products of the rest of a block. -/
theorem BlockExact.tail {i : SourceInstruction} {is : List SourceInstruction}
    {f f' : Frame T.bits} (h : T.BlockExact (i :: is) f) (hi : T.execSource i f = .running f') :
    T.BlockExact is f' := by
  intro front j back g heq hfront
  refine h (i :: front) j back g (by rw [heq]; rfl) ?_
  rw [execAll_cons hi]
  exact hfront

/-- If every product is such, the whole block has the same effect. -/
theorem sameResult_of_blockExact (hword : T.WordSize = 4 ∨ T.WordSize = 8)
    {block : List SourceInstruction} (hexact : T.BlockExact block s.frame) :
    ∃ code, T.runOnBasicBlock site block = some code
      ∧ SameResult (execAll T.execSource block s.frame) (execAll T.exec code s) := by
  induction block generalizing site s with
  | nil => exact ⟨[], rfl, rfl⟩
  | cons i is ih =>
    have hfirst : CallExact i s.frame := hexact [] i is s.frame rfl rfl
    obtain ⟨code, hcode, hsame⟩ := lower_sameResult hword i s site hfirst
    have hrun : ∀ rest, T.runOnBasicBlock (site + 1) is = some rest →
        T.runOnBasicBlock site (i :: is) = some (code ++ rest) := by
      intro rest hrest
      rw [runOnBasicBlock, hcode, Option.bind_some, hrest]
      rfl
    -- where the instruction ends the block, nothing is left to compare
    obtain ⟨rest₀, hrest₀⟩ := exists_runOnBasicBlock hword (site + 1) is
    revert hsame
    cases hi : T.execSource i s.frame with
    | stuck =>
      intro _
      refine ⟨_, hrun rest₀ hrest₀, ?_⟩
      rw [execAll, hi]
      trivial
    | aborted f =>
      cases ht : execAll T.exec code s with
      | running t => exact fun hsame => hsame.elim
      | stuck => exact fun hsame => hsame.elim
      | aborted t =>
        intro hsame
        refine ⟨_, hrun rest₀ hrest₀, ?_⟩
        rw [execAll, hi, execAll_append_eq, ht]
        exact hsame
    | running f =>
      cases ht : execAll T.exec code s with
      | aborted t => exact fun hsame => hsame.elim
      | stuck => exact fun hsame => hsame.elim
      | running t =>
        intro hsame
        obtain rfl : t.frame = f := hsame
        obtain ⟨rest, hrest, hsame'⟩ := @ih t (site + 1) (hexact.tail hi)
        refine ⟨code ++ rest, hrun rest hrest, ?_⟩
        rw [execAll_cons hi, execAll_append ht]
        exact hsame'

theorem BlockExact.take {block : List SourceInstruction} {f : Frame T.bits}
    (h : T.BlockExact block f) (n : ℕ) : T.BlockExact (block.take n) f := by
  intro front i back f' heq hfront
  refine h front i (back ++ block.drop n) f' ?_ hfront
  rw [← List.cons_append, ← List.append_assoc, ← heq, List.take_append_drop]

/-- A product that the block gets to: the code before it ends with the same frame, so the code
for the product has to be right. -/
theorem callExact_of_preservesMeaning {front back : List SourceInstruction}
    {i : SourceInstruction} {f f' : Frame T.bits}
    (h : T.PreservesMeaning (front ++ i :: back) f)
    (hfront : execAll T.execSource front f = .running f') : CallExact i f' := by
  intro dest op1 op2 w x y hi hx hy
  subst hi
  obtain ⟨code, hcode, hsame⟩ := h front.length
  rw [List.take_left, hfront] at hsame
  rw [List.take_left] at hcode
  cases ht : execAll T.exec code ⟨f, fun _ => none⟩ with
  | aborted t =>
    rw [ht] at hsame
    exact hsame.elim
  | stuck =>
    rw [ht] at hsame
    exact hsame.elim
  | running t =>
    rw [ht] at hsame
    obtain rfl : t.frame = f' := hsame
    have htake : (front ++ .call (.umul_with_overflow dest op1 op2) :: back).take
        (front.length + 1) = front ++ [.call (.umul_with_overflow dest op1 op2)] := by
      rw [List.take_length_add_append]
      rfl
    obtain ⟨code', hcode', hsame'⟩ := h (front.length + 1)
    have hlast : T.runOnBasicBlock (0 + front.length) [.call (.umul_with_overflow dest op1 op2)]
        = some (lowerOverflow .mul front.length dest op1 op2) := by
      rw [Nat.zero_add]
      rfl
    have hsplit := runOnBasicBlock_append hcode hlast
    rw [htake] at hcode' hsame'
    rw [hsplit] at hcode'
    obtain rfl := Option.some.inj hcode'
    rw [execAll_append hfront, execAll_append ht, execAll_single] at hsame'
    exact (sameResult_umul_iff hx hy).mp hsame'

end Site

/-- Every block has the same effect before and after the pass, up to every instruction, if and
only if every product that it gets to is one for which the comparison is right. -/
theorem preservesMeaning_iff (T : Target) (hword : T.WordSize = 4 ∨ T.WordSize = 8)
    (block : List SourceInstruction) (f : Frame T.bits) :
    T.PreservesMeaning block f ↔ T.BlockExact block f := by
  constructor
  · intro h front i back f' heq hfront
    rw [heq] at h
    exact callExact_of_preservesMeaning h hfront
  · intro h n
    exact @sameResult_of_blockExact T ⟨f, fun _ => none⟩ 0 hword _ (h.take n)

/-! ## A block with a product -/

/-- A machine with words of 8 bytes and no other instructions. -/
def smallTarget : Target where
  WordSize := 8
  LowerIntrinsics := true
  plain := fun _ f => .running f
  intrinsic := fun _ f => .running f
  LowerIntrinsicCall := fun _ => []
  lower_eq := fun _ _ => rfl

/-- Two bytes, the first one 16. -/
def factors (y : BitVec 8) : Frame smallTarget.bits :=
  ⟨fun n => if n = 0 then some (.int 8 16) else if n = 1 then some (.int 8 y) else none, fun _ => 0⟩

/-- The product of the two bytes. -/
def product : List SourceInstruction := [.call (.umul_with_overflow 2 0 1)]

theorem blockExact_product_iff (y : BitVec 8) :
    smallTarget.BlockExact product (factors y) ↔ MulExact (16#8) y := by
  constructor
  · intro h
    exact h [] _ [] (factors y) rfl rfl 2 0 1 8 16 y rfl rfl rfl
  · intro h front i back f' heq hfront dest op1 op2 w x z hi hx hz
    cases front with
    | nil =>
      obtain rfl : factors y = f' := Outcome.running.inj hfront
      obtain ⟨rfl, -⟩ := List.cons.inj heq
      obtain ⟨rfl, rfl, rfl⟩ := IntrinsicCall.umul_with_overflow.inj (SourceInstruction.call.inj hi)
      obtain ⟨rfl, hx⟩ := Value.int.inj (Option.some.inj hx)
      obtain ⟨-, hz⟩ := Value.int.inj (Option.some.inj hz)
      rw [← eq_of_heq hx, ← eq_of_heq hz]
      exact h
    | cons j front =>
      have hnil : front ++ i :: back = [] := (List.cons.inj heq).2.symm
      exact absurd hnil (List.append_ne_nil_of_right_ne_nil front (List.cons_ne_nil i back))

/-- 16 times 16 does not fit, and the comparison says so. -/
theorem preservesMeaning_iff_input : smallTarget.PreservesMeaning product (factors 16)
    ∧ (smallTarget.PreservesMeaning product (factors 16)
      ↔ smallTarget.BlockExact product (factors 16)) := by
  have hiff := preservesMeaning_iff smallTarget (.inr rfl) product (factors 16)
  refine ⟨hiff.mpr ((blockExact_product_iff 16).mpr ?_), hiff⟩
  unfold MulExact
  decide

/-- 16 times 17 does not fit, but 16 is not below 16; 16 times 0 fits, but 0 is below 16. -/
theorem comparison_misses_overflow : ¬smallTarget.PreservesMeaning product (factors 17)
    ∧ ¬smallTarget.PreservesMeaning product (factors 0) := by
  constructor
  · rw [preservesMeaning_iff smallTarget (.inr rfl), blockExact_product_iff]
    unfold MulExact
    decide
  · rw [preservesMeaning_iff smallTarget (.inr rfl), blockExact_product_iff]
    unfold MulExact
    decide

end Target

end IntrinsicCleanerPass

end Xklee
