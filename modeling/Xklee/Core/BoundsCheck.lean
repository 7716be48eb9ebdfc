/-
The bounds checks of `MemoryObject`, in `lib/Core/Memory.h`.

A range of bytes is in an object when it ends there, as numbers. A check of a constant number
of bytes compares the offset with a bound that cannot wrap around, but for an empty range in
the largest object. A check of a number that is an expression, as `CheckMemoryOutofBound`
makes it, adds the two first, and the sum may wrap around.
-/
import Xklee.Core.MemoryOperationSound

set_option autoImplicit false

namespace Xklee

namespace MemoryObject

variable (mo : MemoryObject)

/-- The check holds exactly when the bytes from the offset on are in the object. -/
def CheckExact (σ : Env) (check : Expr) (offset bytes : ℕ) : Prop :=
  check.IsBool ∧ (check.Holds σ ↔ offset + bytes ≤ mo.size.toNat)

/-- No bytes are asked for in the largest object, unless from behind it. -/
def SafeBytes (offset bytes : ℕ) : Prop :=
  bytes = 0 → mo.size.toNat = 2 ^ 32 - 1 → mo.size.toNat < offset

/-- The sum of the offset and the number of bytes does not wrap around into the object; and in
the largest object, the range is not in it. -/
def SafeSum (w offset bytes : ℕ) : Prop :=
  if mo.size.toNat = 2 ^ 32 - 1 then mo.size.toNat < offset + bytes
  else offset + bytes < 2 ^ w ∨ mo.size.toNat + 2 ^ w < offset + bytes

section Checks

variable {w : ℕ} (hw : 32 ≤ w) {σ : Env} {offset pointer bytesExpr : Expr} {x p y : BitVec w}

/-- The offset of a pointer is a number modulo the width. -/
theorem getOffsetExpr_of_denotes (hp : Denotes σ pointer p) :
    Denotes σ (mo.getOffsetExpr w pointer) (p - BitVec.ofNat w mo.address.toNat) := by
  have hpos : 0 < w := hp.width_eq ▸ hp.1.width_pos
  exact SubExpr.create_denotes hp (denotes_alloc hpos)

include hw

theorem checkExact_bytes_iff (hx : Denotes σ offset x) {bytes : ℕ} (hbytes : bytes < 2 ^ 32) :
    mo.CheckExact σ (mo.getBoundsCheckOffsetBytes w offset bytes) x.toNat bytes
      ↔ mo.SafeBytes x.toNat bytes := by
  obtain ⟨hbool, hiff⟩ := mo.boundsCheckOffsetBytes_denotes hw hx hbytes
  rw [CheckExact, and_iff_right hbool, hiff, SafeBytes]
  omega

/-- The check of an expression compares the sum modulo the width. -/
theorem boundsCheckOffsetExpr_denotes (hx : Denotes σ offset x) (hy : Denotes σ bytesExpr y) :
    (mo.getBoundsCheckOffsetExpr w offset bytesExpr).IsBool
      ∧ ((mo.getBoundsCheckOffsetExpr w offset bytesExpr).Holds σ
        ↔ (x.toNat + y.toNat) % 2 ^ w < (mo.size.toNat + 1) % 2 ^ 32) := by
  have hpos : 0 < w := Nat.lt_of_lt_of_le (by decide) hw
  have hpow : 2 ^ 32 ≤ 2 ^ w := Nat.pow_le_pow_right (by decide) hw
  have hbound : (mo.size + 1).toNat = (mo.size.toNat + 1) % 2 ^ 32 := BitVec.toNat_add _ _
  have hlt : (mo.size.toNat + 1) % 2 ^ 32 < 2 ^ w :=
    Nat.lt_of_lt_of_le (Nat.mod_lt _ (by decide)) hpow
  have hden := UltExpr.create_denotes (AddExpr.create_denotes hx hy)
    (denotes_alloc (v := (mo.size + 1).toNat) hpos)
  refine ⟨⟨hden.1, hden.width_eq⟩, ?_⟩
  rw [getBoundsCheckOffsetExpr]
  refine hden.holds_iff.trans ?_
  rw [BitVec.ult_iff_lt, BitVec.lt_def, BitVec.toNat_ofNat, BitVec.toNat_add, hbound,
    Nat.mod_eq_of_lt hlt]

theorem checkExact_expr_iff (hx : Denotes σ offset x) (hy : Denotes σ bytesExpr y) :
    mo.CheckExact σ (mo.getBoundsCheckOffsetExpr w offset bytesExpr) x.toNat y.toNat
      ↔ mo.SafeSum w x.toNat y.toNat := by
  obtain ⟨hbool, hiff⟩ := mo.boundsCheckOffsetExpr_denotes hw hx hy
  rw [CheckExact, and_iff_right hbool, hiff, SafeSum]
  have hpow : 2 ^ 32 ≤ 2 ^ w := Nat.pow_le_pow_right (by decide) hw
  have hsize := mo.size.isLt
  have hxlt := x.isLt
  have hylt := y.isLt
  by_cases hmax : mo.size.toNat = 2 ^ 32 - 1
  · -- the bound is 0
    have hzero : (mo.size.toNat + 1) % 2 ^ 32 = 0 := by omega
    rw [if_pos hmax, hzero]
    omega
  · have hone : (mo.size.toNat + 1) % 2 ^ 32 = mo.size.toNat + 1 := Nat.mod_eq_of_lt (by omega)
    rw [if_neg hmax, hone]
    by_cases hwraps : x.toNat + y.toNat < 2 ^ w
    · rw [Nat.mod_eq_of_lt hwraps]
      omega
    · have hsum : (x.toNat + y.toNat) % 2 ^ w = x.toNat + y.toNat - 2 ^ w := by
        rw [Nat.mod_eq_sub_mod (by omega), Nat.mod_eq_of_lt (by omega)]
      rw [hsum]
      omega

/-- When the checks are exact, for offsets and for pointers. -/
theorem boundsChecks_exact_iff (hx : Denotes σ offset x) (hp : Denotes σ pointer p)
    (hy : Denotes σ bytesExpr y) {bytes : ℕ} (hbytes : bytes < 2 ^ 32) :
    (mo.CheckExact σ (mo.getBoundsCheckOffsetBytes w offset bytes) x.toNat bytes
        ↔ mo.SafeBytes x.toNat bytes)
      ∧ (mo.CheckExact σ (mo.getBoundsCheckPointerBytes w pointer bytes)
          (p - BitVec.ofNat w mo.address.toNat).toNat bytes
        ↔ mo.SafeBytes (p - BitVec.ofNat w mo.address.toNat).toNat bytes)
      ∧ (mo.CheckExact σ (mo.getBoundsCheckOffsetExpr w offset bytesExpr) x.toNat y.toNat
        ↔ mo.SafeSum w x.toNat y.toNat)
      ∧ (mo.CheckExact σ (mo.getBoundsCheckPointerExpr w pointer bytesExpr)
          (p - BitVec.ofNat w mo.address.toNat).toNat y.toNat
        ↔ mo.SafeSum w (p - BitVec.ofNat w mo.address.toNat).toNat y.toNat) := by
  have hoffset := mo.getOffsetExpr_of_denotes hp
  exact ⟨mo.checkExact_bytes_iff hw hx hbytes, mo.checkExact_bytes_iff hw hoffset hbytes,
    mo.checkExact_expr_iff hw hx hy, mo.checkExact_expr_iff hw hoffset hy⟩

end Checks

/-- An object of 8 bytes. -/
def eightBytes : MemoryObject := ⟨1, 4096, 8, false⟩

/-- A range of 8 bytes in front of the object passes the check of an expression. -/
theorem boundsCheck_wraps :
    ¬eightBytes.CheckExact (fun _ _ => 0)
      (eightBytes.getBoundsCheckOffsetExpr 64 (ConstantExpr.alloc (2 ^ 64 - 8) 64)
        (ConstantExpr.alloc 8 64)) (2 ^ 64 - 8) 8 := by
  intro h
  have hsafe := (eightBytes.checkExact_expr_iff (by decide) (denotes_alloc (by decide))
    (denotes_alloc (by decide))).mp h
  rw [SafeSum, if_neg (by decide)] at hsafe
  revert hsafe
  decide

/-- The range that is the object passes all checks, as an offset and as a pointer. -/
theorem boundsChecks_exact_whole :
    eightBytes.CheckExact (fun _ _ => 0)
        (eightBytes.getBoundsCheckOffsetBytes 64 (ConstantExpr.alloc 0 64) 8) 0 8
      ∧ eightBytes.CheckExact (fun _ _ => 0)
        (eightBytes.getBoundsCheckPointerExpr 64 (ConstantExpr.alloc 4096 64)
          (ConstantExpr.alloc 8 64)) 0 8 := by
  obtain ⟨hoffset, -, -, hpointer⟩ := eightBytes.boundsChecks_exact_iff (by decide : 32 ≤ 64)
    (denotes_alloc (σ := fun _ _ => 0) (v := 0) (by decide)) (denotes_alloc (v := 4096) (by decide))
    (denotes_alloc (v := 8) (by decide)) (by decide : 8 < 2 ^ 32)
  refine ⟨hoffset.mpr fun h => absurd h (by decide), hpointer.mpr ?_⟩
  rw [SafeSum, if_neg (by decide)]
  decide

end MemoryObject

end Xklee
