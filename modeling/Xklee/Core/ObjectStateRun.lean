/-
Runs of accesses to an object.

A read or a write of several bytes goes byte by byte, at a constant offset through
the concrete store and the cache, at a symbolic one through the update list. Over
plain byte memories it is a load or a store. A run of accesses then returns what the
same run on a plain memory returns, and no assertion fails on the way.
-/
import Xklee.Data.Run
import Xklee.Expr.Canonical
import Xklee.Core.ObjectStateSound

set_option autoImplicit false

namespace Xklee

namespace ObjectState

variable {σ : Env} {s : ObjectState} {m : ByteMemory}

/-! ## Reading several bytes -/

section Values

variable (littleEndian : Bool)

variable {size a width offset idx : ℕ} {byte : ObjectState → ℕ → Option (Expr × ObjectState)}
  {value : Expr} {x : BitVec 8}

/-- What the loop of `read` has after `i` bytes. -/
theorem readLoop_represents {NumBytes : ℕ} {addr : ℕ → ℕ}
    (hbyte : ∀ s : ObjectState, s.Represents σ m → s.size = size → ∀ idx < NumBytes,
      Returns σ s m ⟨8, m (addr idx)⟩ (byte s idx)) (h : s.Represents σ m) (hsize : s.size = size)
    {i : ℕ} (hi : i ≤ NumBytes) :
    ∃ res s', readLoop littleEndian NumBytes byte i s = some (res, s') ∧ s'.Represents σ m
      ∧ s'.size = size
      ∧ if i = 0 then res = none else ∃ e, res = some e ∧ HasValue σ e
        ⟨8 * i, ByteMemory.load m (fun i => addr (ByteMemory.byteIndex littleEndian NumBytes i)) i⟩ := by
  induction i with
  | zero => exact ⟨none, s, rfl, h, hsize, rfl⟩
  | succ i ih =>
    obtain ⟨res, s₁, hs₁, hrep, hsize₁, hres⟩ := ih (Nat.le_of_succ_le hi)
    obtain ⟨e, s', hs', he, hrep', hsize'⟩ :=
      hbyte s₁ hrep hsize₁ _ (ByteMemory.byteIndex_lt littleEndian hi)
    simp only [readLoop, hs₁, hs', Option.bind_eq_bind, Option.bind_some]
    refine ⟨_, s', rfl, hrep', hsize'.trans hsize₁, ?_⟩
    rw [if_neg (Nat.succ_ne_zero i), ByteMemory.load, APInt.mk_cast]
    refine ⟨_, rfl, ?_⟩
    by_cases hi0 : i = 0
    · subst hi0
      rw [if_pos rfl] at hres
      rw [hres]
      have hbits : ∀ x : BitVec 8, (⟨8, x⟩ : APInt) = ⟨8 + 8 * 0, x ++ 0#0⟩ := by
        intro x
        exact APInt.mk_inj.mpr (BitVec.append_zero_width x 0#0).symm
      rw [hbits] at he
      exact he
    · rw [if_neg hi0] at hres
      obtain ⟨res, rfl, hres⟩ := hres
      have hconcat := ConcatExpr.create_hasValue (σ := σ) he.1 hres.1
      rw [he.2, hres.2] at hconcat
      exact hconcat

/-- The value that an access of `width` bits at `a` reads: the lowest bit of the
byte for a Bool, a load otherwise. -/
def loadValue (m : ByteMemory) (a width : ℕ) : APInt :=
  if width = Expr.BoolWidth then ⟨1, (m a).extractLsb' 0 1⟩
  else ⟨8 * (width / 8), m.load (ByteMemory.place littleEndian a (width / 8)) (width / 8)⟩

/-- The memory after a write of `value` at `a`: a Bool takes a whole byte. -/
def storeValue (m : ByteMemory) (a : ℕ) (value : APInt) : ByteMemory :=
  if value.width = Expr.BoolWidth then Function.update m a (value.bits.setWidth 8)
  else m.store (ByteMemory.place littleEndian a (value.width / 8)) value.bits (value.width / 8)

theorem storeValue_bool {value : APInt} (h : value.width = Expr.BoolWidth) (a : ℕ) :
    storeValue littleEndian m a value = Function.update m a (value.bits.setWidth 8) := if_pos h

theorem storeValue_bytes {value : APInt} {n : ℕ} (h : value.width ≠ Expr.BoolWidth)
    (hn : value.width / 8 = n) (a : ℕ) :
    storeValue littleEndian m a value
      = m.store (ByteMemory.place littleEndian a n) value.bits n := by
  subst hn
  exact if_neg h

theorem storeValue_byte {value : APInt} (h : value.width = 8) (a : ℕ) :
    storeValue littleEndian m a value = Function.update m a (value.bits.setWidth 8) := by
  have hstore : m.store (ByteMemory.place littleEndian a 1) value.bits (0 + 1)
      = Function.update m a (value.bits.setWidth 8) := by
    rw [ByteMemory.store_succ, BitVec.setWidth_eq_extractLsb' h.ge]
    cases littleEndian <;> rfl
  rw [storeValue_bytes littleEndian (by rw [h]; decide) (congrArg (· / 8) h)]
  exact hstore

/-- Bool, 8, 16, 32 and 64 bits. -/
def IsAccessWidth (width : ℕ) : Prop :=
  width = Expr.BoolWidth ∨ width = 8 ∨ width = 16 ∨ width = 32 ∨ width = 64

instance (width : ℕ) : Decidable (IsAccessWidth width) :=
  inferInstanceAs (Decidable (_ ∨ _ ∨ _ ∨ _ ∨ _))

/-- The number of bytes of an access. -/
def accessBytes (width : ℕ) : ℕ := (width + 7) / 8

theorem IsAccessWidth.bytes (h : IsAccessWidth width) (hne : width ≠ Expr.BoolWidth) :
    width = width / 8 * 8 ∧ 0 < width / 8 ∧ accessBytes width = width / 8 := by
  obtain h | rfl | rfl | rfl | rfl := h
  · exact absurd h hne
  all_goals decide

theorem readBytes_returns (addr : ℕ → ℕ) (hwidth : IsAccessWidth width)
    (hne : width ≠ Expr.BoolWidth) (haddr : ∀ idx < width / 8, addr idx = a + idx)
    (hbyte : ∀ s : ObjectState, s.Represents σ m → s.size = size → ∀ idx < width / 8,
      Returns σ s m ⟨8, m (addr idx)⟩ (byte s idx)) (h : s.Represents σ m) (hsize : s.size = size) :
    Returns σ s m (loadValue littleEndian m a width) (readBytes littleEndian byte width s) := by
  obtain ⟨hmul, hpos, -⟩ := hwidth.bytes hne
  obtain ⟨res, s', hloop, hrep, hsize', hres⟩ :=
    readLoop_represents littleEndian hbyte h hsize (Nat.le_refl (width / 8))
  rw [if_neg hpos.ne'] at hres
  obtain ⟨e, rfl, he⟩ := hres
  refine ⟨e, s', ?_, ?_, hrep, hsize'.trans hsize.symm⟩
  · simp only [readBytes]
    rw [if_pos hmul, hloop]
  · rw [loadValue, if_neg hne]
    rwa [ByteMemory.load_congr m (fun i hi => haddr _ (ByteMemory.byteIndex_lt littleEndian hi))] at he

/-- The lowest bit of a byte. -/
theorem extractBit_hasValue {e : Expr} (he : HasValue σ e ⟨8, x⟩) :
    HasValue σ (ExtractExpr.create e 0 Expr.BoolWidth) ⟨1, x.extractLsb' 0 1⟩ := by
  have hex := ExtractExpr.create_hasValue (σ := σ) he.1 Nat.one_pos
    (by rw [he.width_eq]; exact Nat.le_add_left 1 7 : 0 + 1 ≤ e.width)
  rwa [he.2] at hex

theorem Returns.extractBit {result : Option (Expr × ObjectState)} (h : Returns σ s m ⟨8, x⟩ result) :
    Returns σ s m ⟨1, x.extractLsb' 0 1⟩
      (result.bind fun (byte, s) => some (ExtractExpr.create byte 0 Expr.BoolWidth, s)) := by
  obtain ⟨e, s', rfl, he, hrep, hsize⟩ := h
  exact ⟨_, s', rfl, extractBit_hasValue he, hrep, hsize⟩

theorem addOffset_eq (h : offset + idx < 2 ^ 32) :
    addOffset offset idx = offset + idx := Nat.mod_eq_of_lt h

theorem readAt_returns (h : s.Represents σ m) (hwidth : IsAccessWidth width)
    (hbound : offset + accessBytes width ≤ s.size) :
    Returns σ s m (loadValue littleEndian m offset width)
      (s.readAt littleEndian offset width) := by
  have hlt := s.size_lt
  unfold readAt
  split
  next hbool =>
    rw [loadValue, if_pos hbool]
    have hone : accessBytes width = 1 := by rw [hbool]; rfl
    exact (read8_returns h (by omega)).extractBit
  next hne =>
    obtain ⟨-, -, hbytes⟩ := hwidth.bytes hne
    refine readBytes_returns littleEndian (fun idx => addOffset offset idx) hwidth hne
      (fun idx hidx => addOffset_eq (by omega)) (fun s' hs' hsize idx hidx => ?_) h rfl
    apply read8_returns hs'
    rw [addOffset_eq (by omega), hsize]
    omega

/-- `AddExpr::create(offset, idx)` at a symbolic 32-bit offset. -/
theorem add_offset {offset : Expr} {j : BitVec 32} (hoffset : Denotes σ offset j)
    (hcanonical : offset.Canonical) (hsymbolic : offset.isConstant = false)
    (hlt : j.toNat + idx < 2 ^ 32) :
    (AddExpr.create offset (ConstantExpr.alloc idx 32)).isConstant = false
      ∧ ∃ x : BitVec 32, Denotes σ (AddExpr.create offset (ConstantExpr.alloc idx 32)) x
        ∧ x.toNat = j.toNat + idx := by
  refine ⟨AddExpr.create_isConstant hcanonical hsymbolic (by decide : (32 : ℕ) ≠ 1),
    j + BitVec.ofNat 32 idx, AddExpr.create_denotes hoffset (denotes_alloc (by decide)), ?_⟩
  rw [BitVec.toNat_add, BitVec.toNat_ofNat, Nat.add_mod_mod, Nat.mod_eq_of_lt hlt]

/-- An offset as the executor computes it: a canonical expression. -/
structure OffsetOk (offset : Expr) : Prop where
  wellTyped : offset.WellTyped
  canonical : offset.Canonical

instance (offset : Expr) : Decidable (OffsetOk offset) :=
  decidable_of_iff (offset.WellTyped ∧ offset.Canonical)
    ⟨fun h => ⟨h.1, h.2⟩, fun h => ⟨h.wellTyped, h.canonical⟩⟩

/-- Where an offset points to. -/
def address (σ : Env) (offset : Expr) : ℕ := (offset.eval σ).toNat

/-- The truncated offset of `read` and `write` points to the same byte. -/
theorem OffsetOk.truncate {offset : Expr} (h : OffsetOk offset)
    (hlt : address σ offset < 2 ^ 32) :
    (ZExtExpr.create offset 32).Canonical
      ∧ ∃ j : BitVec 32, Denotes σ (ZExtExpr.create offset 32) j ∧ j.toNat = address σ offset := by
  obtain ⟨x, hx⟩ := h.wellTyped.denotes (σ := σ) rfl
  rw [address, hx.2] at hlt ⊢
  exact ⟨CastExpr.create_canonical .ZExt 32 h.canonical, zext_offset hx hlt⟩

theorem read_returns (h : s.Represents σ m) {offset : Expr} (hwidth : IsAccessWidth width)
    (hoffset : OffsetOk offset) (hbound : address σ offset + accessBytes width ≤ s.size) :
    Returns σ s m (loadValue littleEndian m (address σ offset) width)
      (s.read littleEndian offset width) := by
  have hlt := s.size_lt
  have hpos : 0 < accessBytes width := by
    obtain rfl | rfl | rfl | rfl | rfl := hwidth <;> decide
  obtain ⟨hcanonical, j, hj, hja⟩ := hoffset.truncate (σ := σ) (by omega)
  rw [← hja] at hbound ⊢
  unfold ObjectState.read
  split
  next CE hCE =>
    rw [hCE] at hj
    obtain ⟨-, rfl⟩ := denotes_Constant.mp hj
    exact readAt_returns littleEndian h hwidth hbound
  next hsym =>
    have hsymbolic : (ZExtExpr.create offset 32).isConstant = false := by
      cases hz : ZExtExpr.create offset 32 with
      | Constant CE => exact absurd hz (hsym CE)
      | _ => rfl
    split
    next hbool =>
      rw [loadValue, if_pos hbool]
      exact (read8Symbolic_returns h hj hsymbolic (by omega)).extractBit
    next hne =>
      obtain ⟨-, -, hbytes⟩ := hwidth.bytes hne
      refine readBytes_returns littleEndian (fun idx => j.toNat + idx) hwidth hne
        (fun _ _ => rfl) (fun s' hs' hsize idx hidx => ?_) h rfl
      obtain ⟨hadd, x, hx, hxj⟩ := add_offset hj hcanonical hsymbolic
        (by omega : j.toNat + idx < 2 ^ 32)
      rw [← hxj]
      exact read8Symbolic_returns hs' hx hadd (by omega)

/-! ## Writing several bytes -/

theorem writeConst_represents (h : s.Represents σ m) (offset NumBytes : ℕ) (value : APInt)
    (hbound : offset + NumBytes ≤ s.size) :
    (s.writeConst littleEndian offset NumBytes value).Represents σ
        (m.store (ByteMemory.place littleEndian offset NumBytes) value.bits NumBytes)
      ∧ (s.writeConst littleEndian offset NumBytes value).size = s.size := by
  have hlt := s.size_lt
  have hrun : ∀ n ≤ NumBytes, ∀ s' : ObjectState, s' = (List.range n).foldl
      (fun s i => s.write8 (addOffset offset (ByteMemory.byteIndex littleEndian NumBytes i))
        (value.bits.extractLsb' (8 * i) 8)) s →
      s'.Represents σ (m.store (ByteMemory.place littleEndian offset NumBytes) value.bits n)
        ∧ s'.size = s.size := by
    intro n hn
    induction n with
    | zero =>
      rintro s' rfl
      exact ⟨h, rfl⟩
    | succ n ih =>
      rintro s' rfl
      obtain ⟨hrep, hsize⟩ := ih (Nat.le_of_succ_le hn) _ rfl
      have hidx := ByteMemory.byteIndex_lt littleEndian hn
      rw [List.range_succ, List.foldl_append, List.foldl_cons, List.foldl_nil,
        ByteMemory.store_succ, ByteMemory.place, ← addOffset_eq (by omega)]
      obtain ⟨hrep', hsize'⟩ := write8_represents hrep
        (addOffset offset (ByteMemory.byteIndex littleEndian NumBytes n))
        (value.bits.extractLsb' (8 * n) 8)
      exact ⟨hrep', hsize'.trans hsize⟩
  exact hrun NumBytes le_rfl _ rfl

theorem writeBytes_leaves {byte : ObjectState → ℕ → Expr → Option ObjectState} (addr : ℕ → ℕ)
    (hvalue : value.WellTyped) (hmul : value.width = value.width / 8 * 8)
    (hne : value.width ≠ Expr.BoolWidth) (haddr : ∀ idx < value.width / 8, addr idx = a + idx)
    (hbyte : ∀ (s : ObjectState) (m : ByteMemory), s.Represents σ m → s.size = size →
      ∀ idx < value.width / 8, ∀ (e : Expr) (v : BitVec 8), Denotes σ e v →
        Leaves σ s (Function.update m (addr idx) v) (byte s idx e)) (h : s.Represents σ m)
    (hsize : s.size = size) :
    Leaves σ s (storeValue littleEndian m a (value.eval σ))
      (writeBytes littleEndian byte s value) := by
  have heval := hvalue.eval_width (σ := σ)
  have hrun : ∀ n ≤ value.width / 8, ∃ s', (List.range n).foldlM
      (fun s i => byte s (ByteMemory.byteIndex littleEndian (value.width / 8) i)
        (ExtractExpr.create value (8 * i) 8)) s = some s'
      ∧ s'.Represents σ (m.store (ByteMemory.place littleEndian a (value.width / 8))
        (value.eval σ).bits n) ∧ s'.size = size := by
    intro n hn
    induction n with
    | zero => exact ⟨s, rfl, h, hsize⟩
    | succ n ih =>
      obtain ⟨s₁, hs₁, hrep, hsize₁⟩ := ih (Nat.le_of_succ_le hn)
      have hidx := ByteMemory.byteIndex_lt littleEndian hn
      have hbits : HasValue σ (ExtractExpr.create value (8 * n) 8)
          ((value.eval σ).extract (8 * n) 8) :=
        ExtractExpr.create_hasValue hvalue (by decide) (by omega)
      obtain ⟨s', hs', hrep', hsize'⟩ := hbyte s₁ _ hrep hsize₁ _ hidx _ _ hbits
      refine ⟨s', ?_, ?_, hsize'.trans hsize₁⟩
      · rw [List.range_succ, List.foldlM_append, hs₁]
        simpa using hs'
      · rw [ByteMemory.store_succ, ByteMemory.place, ← haddr _ hidx]
        exact hrep'
  obtain ⟨s', hs', hrep, hsize'⟩ := hrun _ le_rfl
  refine ⟨s', ?_, ?_, hsize'.trans hsize.symm⟩
  · simp only [writeBytes]
    rw [if_pos hmul]
    exact hs'
  · rw [storeValue_bytes littleEndian (heval.trans_ne hne) (congrArg (· / 8) heval)]
    exact hrep

/-- A Bool is written as a byte. -/
theorem zext8_denotes (hvalue : value.WellTyped) :
    Denotes σ (ZExtExpr.create value 8) ((value.eval σ).bits.setWidth 8) :=
  CastExpr.create_hasValue .ZExt hvalue (by decide)

theorem writeExprAt_leaves (h : s.Represents σ m) (hvalue : value.WellTyped)
    (hwidth : value.width = Expr.BoolWidth ∨ value.width = value.width / 8 * 8)
    (hbound : offset + accessBytes value.width ≤ s.size) :
    Leaves σ s (storeValue littleEndian m offset (value.eval σ))
      (s.writeExprAt littleEndian offset value) := by
  have hlt := s.size_lt
  unfold accessBytes at hbound
  unfold writeExprAt
  split
  next hbool =>
    rw [storeValue_bool littleEndian (hvalue.eval_width.trans hbool)]
    exact ⟨_, rfl, write8Expr_represents h offset (zext8_denotes hvalue)⟩
  next hne =>
    have hmul := hwidth.resolve_left hne
    refine writeBytes_leaves littleEndian (fun idx => addOffset offset idx) hvalue hmul
      hne (fun idx hidx => addOffset_eq (by omega)) (fun s' m' hs' hsize idx hidx e v he => ?_) h rfl
    exact ⟨_, rfl, write8Expr_represents hs' _ he⟩

/-- The values that `writeAt` takes: a Bool or whole bytes, and among the constants of at most
64 bits those of an access width. -/
def Writable (value : Expr) : Prop :=
  (value.width = Expr.BoolWidth ∨ value.width = value.width / 8 * 8)
    ∧ ∀ CE, value = .Constant CE → CE.width ≤ 64 → IsAccessWidth CE.width

theorem writable_of_isAccessWidth (h : IsAccessWidth value.width) :
    Writable value := by
  refine ⟨?_, fun CE hCE _ => ?_⟩
  · by_cases hne : value.width = Expr.BoolWidth
    · exact .inl hne
    · exact .inr (h.bytes hne).1
  · rw [hCE] at h
    exact h

theorem writeAt_leaves_of_writable (h : s.Represents σ m) (hvalue : value.WellTyped)
    (hwritable : Writable value) (hbound : offset + accessBytes value.width ≤ s.size) :
    Leaves σ s (storeValue littleEndian m offset (value.eval σ))
      (s.writeAt littleEndian offset value) := by
  unfold writeAt
  split
  next CE =>
    by_cases hle : CE.width ≤ 64
    · have hwidth : IsAccessWidth CE.width := hwritable.2 CE rfl hle
      rw [Expr.width_Constant] at hbound
      rw [Expr.eval_Constant]
      have hconst : ∀ n, CE.width = 8 * n → CE.width ≠ Expr.BoolWidth →
          Leaves σ s (storeValue littleEndian m offset CE)
            (some (s.writeConst littleEndian offset n CE)) := by
        intro n hn hne
        have hdiv : CE.width / 8 = n := by omega
        obtain ⟨-, -, hbytes⟩ := hwidth.bytes hne
        rw [storeValue_bytes littleEndian hne hdiv]
        exact ⟨_, rfl, writeConst_represents littleEndian h offset n CE (by omega)⟩
      rw [if_pos hle]
      split
      next hone =>
        have hwrite := write8_represents h offset (CE.bits.setWidth 8)
        refine ⟨_, rfl, ?_⟩
        by_cases hbool : CE.width = Expr.BoolWidth
        · rw [storeValue_bool littleEndian hbool]
          exact hwrite
        · rw [storeValue_byte littleEndian (hone.resolve_left hbool)]
          exact hwrite
      next hone =>
        have hne : CE.width ≠ Expr.BoolWidth := fun hw => hone (.inl hw)
        split
        next h16 => exact hconst 2 h16 hne
        next h16 =>
          split
          next h32 => exact hconst 4 h32 hne
          next h32 =>
            split
            next h64 => exact hconst 8 h64 hne
            next h64 =>
              obtain hw | hw | hw | hw | hw := hwidth
              · exact absurd (.inl hw) hone
              · exact absurd (.inr hw) hone
              · exact absurd hw h16
              · exact absurd hw h32
              · exact absurd hw h64
    · rw [if_neg hle]
      exact writeExprAt_leaves littleEndian h hvalue hwritable.1 hbound
  next => exact writeExprAt_leaves littleEndian h hvalue hwritable.1 hbound

theorem writeAt_leaves (h : s.Represents σ m) (hvalue : value.WellTyped)
    (hwidth : IsAccessWidth value.width) (hbound : offset + accessBytes value.width ≤ s.size) :
    Leaves σ s (storeValue littleEndian m offset (value.eval σ))
      (s.writeAt littleEndian offset value) :=
  writeAt_leaves_of_writable littleEndian h hvalue (writable_of_isAccessWidth hwidth) hbound

/-- Other values fail an assertion. -/
theorem writeAt_eq_none (hwritable : ¬Writable value) :
    s.writeAt littleEndian offset value = none := by
  have hslow : ¬(value.width = Expr.BoolWidth ∨ value.width = value.width / 8 * 8) →
      s.writeExprAt littleEndian offset value = none := by
    intro h
    unfold writeExprAt writeBytes
    rw [if_neg fun hb => h (.inl hb)]
    exact if_neg fun hb => h (.inr hb)
  unfold writeAt
  split
  next CE =>
    split
    next hle =>
      have hwidth : ¬IsAccessWidth CE.width := by
        intro hwidth
        exact hwritable (writable_of_isAccessWidth hwidth)
      unfold IsAccessWidth Expr.BoolWidth at hwidth
      rw [if_neg (by omega), if_neg (by omega), if_neg (by omega), if_neg (by omega)]
    next hle =>
      refine hslow fun hw => hwritable ⟨hw, fun CE' heq hle' => ?_⟩
      obtain rfl := Expr.Constant.inj heq
      exact absurd hle' hle
  next hne => exact hslow fun hw => hwritable ⟨hw, fun CE heq => absurd heq (hne CE)⟩

theorem write_leaves (h : s.Represents σ m) {offset : Expr} (hvalue : value.WellTyped)
    (hwidth : IsAccessWidth value.width) (hoffset : OffsetOk offset)
    (hbound : address σ offset + accessBytes value.width ≤ s.size) :
    Leaves σ s (storeValue littleEndian m (address σ offset) (value.eval σ))
      (s.write littleEndian offset value) := by
  have hlt := s.size_lt
  have hpos : 0 < accessBytes value.width := by
    obtain hw | hw | hw | hw | hw := hwidth <;> rw [hw] <;> decide
  obtain ⟨hcanonical, j, hj, hja⟩ := hoffset.truncate (σ := σ) (by omega)
  rw [← hja] at hbound ⊢
  unfold ObjectState.write
  split
  next CE hCE =>
    rw [hCE] at hj
    obtain ⟨-, rfl⟩ := denotes_Constant.mp hj
    exact writeAt_leaves littleEndian h hvalue hwidth hbound
  next hsym =>
    have hsymbolic : (ZExtExpr.create offset 32).isConstant = false := by
      cases hz : ZExtExpr.create offset 32 with
      | Constant CE => exact absurd hz (hsym CE)
      | _ => rfl
    split
    next hbool =>
      rw [storeValue_bool littleEndian (hvalue.eval_width.trans hbool)]
      exact write8Symbolic_leaves h hj hsymbolic (by omega) (zext8_denotes hvalue)
    next hne =>
      obtain ⟨hmul, -, hbytes⟩ := hwidth.bytes hne
      refine writeBytes_leaves littleEndian (fun idx => j.toNat + idx) hvalue hmul hne
        (fun _ _ => rfl) (fun s' m' hs' hsize idx hidx e v he => ?_) h rfl
      obtain ⟨hadd, x, hx, hxj⟩ := add_offset hj hcanonical hsymbolic
        (by omega : j.toNat + idx < 2 ^ 32)
      rw [← hxj]
      exact write8Symbolic_leaves hs' hx hadd (by omega) he

end Values

/-! ## Initial states -/

variable {σ : Env} {size : ℕ} {s : ObjectState} {m : ByteMemory}

/-- `ObjectState(mo)` holds zeros. -/
theorem ofConcrete_represents (σ : Env) (h : size < 2 ^ 32) (tmpArr : Option KArray)
    (constArray : ℕ) : (ofConcrete size h tmpArr constArray).Represents σ fun _ => 0 where
  typed := fun _ hw => absurd hw List.not_mem_nil
  bytes := fun _ _ => ⟨fun _ => rfl, fun _ => .inl rfl, fun _ => rfl, fun _ he => (nomatch he),
    fun hf => absurd hf Bool.false_ne_true⟩

/-- After `makeConcrete` the bytes are those of the concrete store. -/
theorem Represents.makeConcrete (h : s.Represents σ m) (store : ℕ → BitVec 8) :
    ({ s.makeConcrete with concreteStore := store } : ObjectState).Represents σ store where
  typed := h.typed
  bytes := fun _ _ => ⟨fun _ => rfl, fun _ => .inl rfl, fun _ => rfl, fun _ he => (nomatch he),
    fun hf => absurd hf Bool.false_ne_true⟩

/-- The byte is in the update list and nowhere else. -/
def InUpdates (s : ObjectState) (j : ℕ) : Prop := s.OnlyFlushed j ∧ s.isByteFlushed j = true

/-- The body of the loop of `makeSymbolic`. -/
theorem makeSymbolic_step (s : ObjectState) (i : ℕ) :
    let s' := ((s.markByteSymbolic i).setKnownSymbolic i none).markByteFlushed i
    s'.InUpdates i ∧ (∀ j, s.InUpdates j → s'.InUpdates j)
      ∧ s'.root = s.root ∧ s'.nodes = s.nodes ∧ s'.size = s.size := by
  intro s'
  have hconcrete : ∀ j, s'.isByteConcrete j
      = ((s.markByteSymbolic i).setKnownSymbolic i none).isByteConcrete j := by
    intro j
    simp only [s', markByteFlushed]
    split <;> rfl
  have hknown : ∀ j, s'.knownSymbolic j
      = ((s.markByteSymbolic i).setKnownSymbolic i none).knownSymbolic j := by
    intro j
    simp only [s', markByteFlushed]
    split <;> rfl
  have hflushed : ∀ j, j = i ∨ s.isByteFlushed j = true → s'.isByteFlushed j = true := by
    intro j hj
    simp only [s', markByteFlushed]
    split
    next => rfl
    next mask hmask =>
      rw [flushMask_setKnownSymbolic] at hmask
      have hold : s.flushMask = some mask := hmask
      obtain rfl | hj := hj
      · simp [isByteFlushed]
      · simp only [isByteFlushed, hold] at hj ⊢
        by_cases hji : j = i
        · simp [hji]
        · rw [Function.update_of_ne hji]
          exact hj
  have hkeep : ∀ j, j = i ∨ s.InUpdates j → s'.InUpdates j := by
    intro j hj
    refine ⟨⟨?_, ?_⟩, hflushed j (hj.imp_right fun h => h.2)⟩
    · rw [hconcrete, isByteConcrete_setKnownSymbolic, isByteConcrete_markByteSymbolic]
      obtain rfl | hj := hj
      · simp
      · rw [hj.1.1, Bool.and_false]
    · rw [hknown, knownSymbolic_setKnownSymbolic, knownSymbolic_markByteSymbolic]
      obtain rfl | hj := hj
      · exact if_pos rfl
      · rw [hj.1.2, ite_self]
  refine ⟨hkeep i (.inl rfl), fun j hj => hkeep j (.inr hj), ?_⟩
  simp only [s', markByteFlushed]
  split <;> simp [markByteSymbolic]

/-- The loop of `makeSymbolic` puts every byte into the update list. -/
theorem foldl_makeSymbolic (offsets : List ℕ) (s : ObjectState) :
    let s' := offsets.foldl
      (fun s i => ((s.markByteSymbolic i).setKnownSymbolic i none).markByteFlushed i) s
    (∀ j, j ∈ offsets ∨ s.InUpdates j → s'.InUpdates j)
      ∧ s'.root = s.root ∧ s'.nodes = s.nodes ∧ s'.size = s.size := by
  induction offsets generalizing s with
  | nil => exact ⟨fun j hj => hj.resolve_left (by simp), rfl, rfl, rfl⟩
  | cons o offsets ih =>
    obtain ⟨hself, hkeep, hroot, hnodes, hsize⟩ := makeSymbolic_step s o
    obtain ⟨hall, hroot', hnodes', hsize'⟩ :=
      ih (((s.markByteSymbolic o).setKnownSymbolic o none).markByteFlushed o)
    refine ⟨fun j hj => hall j ?_, hroot'.trans hroot, hnodes'.trans hnodes, hsize'.trans hsize⟩
    rw [List.mem_cons, or_assoc] at hj
    obtain rfl | hj | hj := hj
    · exact .inr hself
    · exact .inl hj
    · exact .inr (hkeep j hj)

/-- `ObjectState(mo, array)` holds the array. -/
theorem ofArray_represents (σ : Env) (h : size < 2 ^ 32) (array : KArray) (constArray : ℕ) :
    (ofArray size h array constArray).Represents σ (array.initial σ)
      ∧ (ofArray size h array constArray).size = size := by
  obtain ⟨hall, hroot, hnodes, hsize⟩ :=
    foldl_makeSymbolic (List.range size) (ofConcrete size h (some array) constArray)
  refine ⟨⟨fun w hw => ?_, fun i hi => ?_⟩, hsize⟩
  · have hnil : (ofArray size h array constArray).nodes = [] := hnodes
    rw [hnil] at hw
    exact absurd hw List.not_mem_nil
  · have hi' : i < size := hi.trans_eq hsize
    obtain ⟨⟨hc, hk⟩, hf⟩ := hall i (.inl (List.mem_range.mpr hi'))
    refine ⟨fun hc' => absurd (hc.symm.trans hc') Bool.false_ne_true,
      fun hf' => absurd (hf'.symm.trans hf) Bool.false_ne_true,
      fun hc' => absurd (hc.symm.trans hc') Bool.false_ne_true,
      fun e he => (nomatch hk.symm.trans he), fun _ => ?_⟩
    have hread : (ofArray size h array constArray).updatesRead σ
        = readNodes σ (array.initial σ) [] := by
      rw [updatesRead, rootBytes]
      exact congrArg₂ (readNodes σ) (by rw [show (ofArray size h array constArray).root
        = some array from hroot]) hnodes
    rw [hread]
    rfl

/-- How an object starts: with the bytes of an array or with zeros. -/
inductive Initial (σ : Env) : ObjectState → ByteMemory → Prop
  | concrete {size : ℕ} (h : size < 2 ^ 32) (tmpArr : Option KArray) (constArray : ℕ) :
      Initial σ (ofConcrete size h tmpArr constArray) fun _ => 0
  | symbolic {size : ℕ} (h : size < 2 ^ 32) (array : KArray) (constArray : ℕ) :
      Initial σ (ofArray size h array constArray) (array.initial σ)

theorem Initial.represents (h : Initial σ s m) :
    s.Represents σ m := by
  cases h with
  | concrete h tmpArr constArray => exact ofConcrete_represents σ h tmpArr constArray
  | symbolic h array constArray => exact (ofArray_represents σ h array constArray).1

/-! ## Runs -/

/-- A use of an object. -/
inductive Access where
  | read (offset : Expr) (width : ℕ)
  | write (offset value : Expr)
  | initializeToZero
  | initializeToRandom

/-- An access to the object; a read returns its expression. -/
def access (littleEndian : Bool) (s : ObjectState) : Access → Option (Option Expr × ObjectState)
  | .read offset width => (s.read littleEndian offset width).map fun (e, s) => (some e, s)
  | .write offset value => (s.write littleEndian offset value).map fun s => (none, s)
  | .initializeToZero => some (none, s.initializeToZero)
  | .initializeToRandom => some (none, s.initializeToRandom)

/-- The access to a plain memory. -/
def plainAccess (littleEndian : Bool) (σ : Env) (m : ByteMemory) :
    Access → Option APInt × ByteMemory
  | .read offset width => (some (loadValue littleEndian m (address σ offset) width), m)
  | .write offset value => (none, storeValue littleEndian m (address σ offset) (value.eval σ))
  | .initializeToZero => (none, fun _ => 0)
  | .initializeToRandom => (none, fun _ => 0xAB)

/-- The access stays within an object of `size` bytes. -/
def Access.InBounds (σ : Env) (size : ℕ) : Access → Prop
  | .read offset width => IsAccessWidth width ∧ OffsetOk offset
      ∧ address σ offset + accessBytes width ≤ size
  | .write offset value => IsAccessWidth value.width ∧ value.WellTyped ∧ OffsetOk offset
      ∧ address σ offset + accessBytes value.width ≤ size
  | .initializeToZero | .initializeToRandom => True

instance (σ : Env) (size : ℕ) : (a : Access) → Decidable (a.InBounds σ size)
  | .read offset width => inferInstanceAs (Decidable (IsAccessWidth width ∧ OffsetOk offset
      ∧ address σ offset + accessBytes width ≤ size))
  | .write offset value => inferInstanceAs (Decidable (IsAccessWidth value.width
      ∧ value.WellTyped ∧ OffsetOk offset
      ∧ address σ offset + accessBytes value.width ≤ size))
  | .initializeToZero | .initializeToRandom => isTrue trivial

/-- The simulation relation: an object of `size` bytes with the contents `m`. -/
def Holds (σ : Env) (size : ℕ) (s : ObjectState) (m : ByteMemory) : Prop :=
  s.Represents σ m ∧ s.size = size

/-- One access does what it does to the plain memory. -/
theorem access_simulates (littleEndian : Bool) (h : Holds σ size s m) {a : Access}
    (ha : a.InBounds σ size) :
    ∃ e s', s.access littleEndian a = some (e, s')
      ∧ Option.Rel (HasValue σ) e (plainAccess littleEndian σ m a).1
      ∧ Holds σ size s' (plainAccess littleEndian σ m a).2 := by
  obtain ⟨hrep, rfl⟩ := h
  cases a with
  | read offset width =>
    obtain ⟨hwidth, hoffset, hbound⟩ := ha
    obtain ⟨e, s', hs', he, hrep', hsize⟩ :=
      read_returns littleEndian hrep hwidth hoffset hbound
    refine ⟨some e, s', ?_, .some he, hrep', hsize⟩
    rw [access, hs']
    rfl
  | write offset value =>
    obtain ⟨hwidth, hvalue, hoffset, hbound⟩ := ha
    obtain ⟨s', hs', hrep', hsize⟩ :=
      write_leaves littleEndian hrep hvalue hwidth hoffset hbound
    refine ⟨none, s', ?_, .none, hrep', hsize⟩
    rw [access, hs']
    rfl
  | initializeToZero => exact ⟨none, _, rfl, .none, hrep.makeConcrete _, rfl⟩
  | initializeToRandom => exact ⟨none, _, rfl, .none, hrep.makeConcrete _, rfl⟩

/-- A run of in-bounds accesses returns what the run on a plain memory returns, and
leaves every byte in the order that `ByteOk` says. -/
theorem accesses_correct (littleEndian : Bool) (σ : Env) {s : ObjectState} {m : ByteMemory}
    (h : Initial σ s m) (accesses : List Access) (hin : ∀ a ∈ accesses, a.InBounds σ s.size) :
    ∃ results s', runOption (access littleEndian) s accesses = some (results, s')
      ∧ List.Forall₂ (Option.Rel (HasValue σ)) results
        (run (plainAccess littleEndian σ) m accesses).1
      ∧ Holds σ s.size s' (run (plainAccess littleEndian σ) m accesses).2 := by
  have hstep : ∀ (s' : ObjectState) (m' : ByteMemory) (a : Access), Holds σ s.size s' m' →
      a.InBounds σ s.size → ∃ e s'', access littleEndian s' a = some (e, s'')
        ∧ Option.Rel (HasValue σ) e (plainAccess littleEndian σ m' a).1
        ∧ Holds σ s.size s'' (plainAccess littleEndian σ m' a).2 :=
    fun _ _ _ hrel ha => access_simulates littleEndian hrel ha
  exact runOption_simulates (Holds σ s.size) hstep ⟨h.represents, rfl⟩
    (allSteps_of_forall m hin)

/-- An array whose byte is used as an offset below. -/
def indexArray : KArray := ⟨1, "i", 1, [], .inl rfl⟩

/-- A symbolic 32-bit offset. -/
def symbolicOffset : Expr :=
  .Cast .ZExt (.Read (.root indexArray) (ConstantExpr.alloc 0 32)) 32

/-- A 16-bit write at a symbolic offset, read back at a constant one, of which the
upper byte was written over. -/
theorem accesses_correct_overlap :
    ∃ results s', runOption (access true) (ofConcrete 4 (by decide) none 0)
        [.write symbolicOffset (ConstantExpr.alloc 0x1234 16),
          .write (ConstantExpr.alloc 2 32) (ConstantExpr.alloc 0x56 8),
          .read (ConstantExpr.alloc 1 32) 16] = some (results, s')
      ∧ List.Forall₂ (Option.Rel (HasValue fun _ _ => 1)) results
        [none, none, some (APInt.ofNat 16 0x5634)] := by
  obtain ⟨results, s', hrun, hresults, -⟩ := accesses_correct true (fun _ _ => 1)
    (.concrete (by decide : 4 < 2 ^ 32) none 0)
    [.write symbolicOffset (ConstantExpr.alloc 0x1234 16),
      .write (ConstantExpr.alloc 2 32) (ConstantExpr.alloc 0x56 8),
      .read (ConstantExpr.alloc 1 32) 16]
    (by decide)
  refine ⟨results, s', hrun, ?_⟩
  have hplain : (run (plainAccess true fun _ _ => 1) (fun _ => 0)
      [.write symbolicOffset (ConstantExpr.alloc 0x1234 16),
        .write (ConstantExpr.alloc 2 32) (ConstantExpr.alloc 0x56 8),
        .read (ConstantExpr.alloc 1 32) 16]).1 = [none, none, some (APInt.ofNat 16 0x5634)] := by
    decide
  rwa [hplain] at hresults

/-- A byte of the concrete store stays concrete when a read at a symbolic offset
flushes it: it is in two states at once. -/
theorem byte_flushed_and_concrete :
    Access.InBounds (fun _ _ => 0) 1 (.read symbolicOffset 1)
      ∧ ∃ results s', runOption (access true) (ofConcrete 1 (by decide) none 0)
          [.read symbolicOffset 1] = some (results, s')
        ∧ s'.isByteConcrete 0 = true ∧ s'.isByteFlushed 0 = true :=
  ⟨by decide, _, _, rfl, rfl, rfl⟩

end ObjectState

end Xklee
