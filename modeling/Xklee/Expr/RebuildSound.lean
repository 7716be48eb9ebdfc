/-
The structural constructors preserve meaning, and `rebuild` with them.

`ConcatExpr::create` and `ExtractExpr::create` call each other: an extract of a
concatenation that straddles the two parts is the concatenation of two extracts,
and a concatenation of adjacent extracts is one extract. The casts, `Select` and
`Read` follow, and the last section puts every constructor together: rebuilding
a node gives an expression of the node's width and value.
-/
import Xklee.Expr.CreateSound

set_option autoImplicit false

namespace Xklee

variable {σ : Env} {w : ℕ}

/-! ## Concat and Extract -/

/-- `e` is well typed and its value is `a`. -/
def HasValue (σ : Env) (e : Expr) (a : APInt) : Prop := e.WellTyped ∧ e.eval σ = a

variable {e l r index : Expr} {extract : Expr → ℕ → ℕ → Expr} {n : ℕ} {ul : UpdateList}
  {j : BitVec 32}

theorem HasValue.width_eq {a : APInt} (h : HasValue σ e a) : e.width = a.width := by
  rw [← h.1.eval_width (σ := σ), h.2]

/-- `extract` extracts from every well-typed expression. -/
def Extracts (σ : Env) (extract : Expr → ℕ → ℕ → Expr) : Prop :=
  ∀ ⦃e : Expr⦄ ⦃off w : ℕ⦄, e.WellTyped → 0 < w → off + w ≤ e.width →
    HasValue σ (extract e off w) ((e.eval σ).extract off w)

theorem hasValue_Concat (hl : l.WellTyped) (hr : r.WellTyped) :
    HasValue σ (.Concat l r) ((l.eval σ).concat (r.eval σ)) :=
  ⟨⟨hl, hr⟩, Expr.eval_Concat σ l r⟩

theorem ConcatExpr.createWith_hasValue (hex : Extracts σ extract) (hl : l.WellTyped)
    (hr : r.WellTyped) :
    HasValue σ (ConcatExpr.createWith extract l r) ((l.eval σ).concat (r.eval σ)) := by
  rw [ConcatExpr.createWith.eq_def]
  split
  next a b =>
    rw [ConstantExpr.Concat_eq]
    exact ⟨Nat.add_pos_left hl.width_pos _, rfl⟩
  next e off w e' off' w' =>
    split
    next h =>
      -- two extracts of one expression, the left one above the right one
      obtain ⟨rfl, rfl⟩ := h
      obtain ⟨he, hw, hle⟩ := hl
      rw [Expr.eval_Extract, Expr.eval_Extract, APInt.concat_extract_extract]
      exact hex he (Nat.add_pos_left hw _) (by omega)
    next h => exact hasValue_Concat hl hr
  next => exact hasValue_Concat hl hr

theorem ExtractExpr.createBody_hasValue (hex : Extracts σ extract) :
    Extracts σ (ExtractExpr.createBody extract) := by
  intro e off w he hw hle
  unfold ExtractExpr.createBody
  split
  next hall =>
    -- the whole expression
    obtain rfl : off = 0 := by omega
    rw [hall, ← he.eval_width (σ := σ), APInt.extract_all]
    exact ⟨he, rfl⟩
  next hne =>
    split
    next c =>
      rw [ConstantExpr.Extract_eq c hle]
      exact ⟨hw, rfl⟩
    next left right =>
      obtain ⟨hl, hr⟩ := he
      have hwl := hl.eval_width (σ := σ)
      have hwr := hr.eval_width (σ := σ)
      rw [Expr.width_Concat] at hle
      rw [Expr.eval_Concat]
      split
      next h1 =>
        rw [APInt.extract_concat_left _ _ (hwr.trans_le h1), hwr]
        exact hex hl hw (by omega)
      next h1 =>
        split
        next h2 =>
          rw [APInt.extract_concat_right _ _ (h2.trans_eq hwr.symm)]
          exact hex hr hw h2
        next h2 =>
          -- the extract straddles the two parts
          rw [APInt.extract_concat_straddle _ _ (by omega) (by omega), hwr]
          have hL := @hex left 0 (w + off - right.width) hl (by omega) (by omega)
          have hR := @hex right off (right.width - off) hr (by omega) (by omega)
          rw [← hL.2, ← hR.2]
          exact ConcatExpr.createWith_hasValue hex hL.1 hR.1
    next => exact ⟨⟨he, hw, hle⟩, Expr.eval_Extract σ _ off w⟩

theorem ExtractExpr.createN_hasValue (n : ℕ) : Extracts σ (ExtractExpr.createN n) := by
  induction n with
  | zero => exact fun e off w he hw hle => ⟨⟨he, hw, hle⟩, Expr.eval_Extract σ e off w⟩
  | succ n ih => exact ExtractExpr.createBody_hasValue ih

theorem ExtractExpr.create_hasValue : Extracts σ ExtractExpr.create :=
  fun _ _ _ he hw hle => ExtractExpr.createN_hasValue _ he hw hle

theorem ConcatExpr.create_hasValue (hl : l.WellTyped) (hr : r.WellTyped) :
    HasValue σ (ConcatExpr.create l r) ((l.eval σ).concat (r.eval σ)) :=
  ConcatExpr.createWith_hasValue ExtractExpr.create_hasValue hl hr

/-! ## Not and the casts -/

theorem NotExpr.create_hasValue (he : e.WellTyped) :
    HasValue σ (NotExpr.create e) (e.eval σ).not := by
  rw [NotExpr.create.eq_def]
  split
  next c => exact ⟨he, rfl⟩
  next => exact ⟨he, Expr.eval_Not σ _⟩

/-- Both casts truncate when they narrow. -/
theorem CastKind.apply_narrow (k : CastKind) (a : APInt) (h : n ≤ a.width) :
    k.apply a n = a.extract 0 n := by
  have hz : a.bits.setWidth n = a.bits.extractLsb' 0 n := BitVec.setWidth_eq_extractLsb' h
  cases k with
  | ZExt => exact APInt.mk_inj.mpr hz
  | SExt =>
    refine APInt.mk_inj.mpr ?_
    rw [BitVec.signExtend_eq_setWidth_of_le _ h, hz]

theorem CastKind.apply_self (k : CastKind) (a : APInt) : k.apply a a.width = a := by
  rw [k.apply_narrow a le_rfl, APInt.extract_all]

theorem CastExpr.create_hasValue (k : CastKind) (he : e.WellTyped) (hn : 0 < n) :
    HasValue σ (CastExpr.create k e n) (k.apply (e.eval σ) n) := by
  have hwe := he.eval_width (σ := σ)
  unfold CastExpr.create
  split
  next h =>
    rw [h, ← hwe, CastKind.apply_self]
    exact ⟨he, rfl⟩
  next h =>
    split
    next hlt =>
      rw [CastKind.apply_narrow k _ (by omega)]
      exact ExtractExpr.create_hasValue he hn (by omega)
    next hge =>
      split
      next c =>
        refine ⟨?_, rfl⟩
        cases k <;> exact hn
      next => exact ⟨⟨he, by omega⟩, Expr.eval_Cast σ k _ n⟩

/-! ## Select -/

theorem SelectExpr.create_denotes {c t f : Expr} {b : Bool} {x y : BitVec w}
    (hc : Denotes σ c (BitVec.ofBool b)) (ht : Denotes σ t x) (hf : Denotes σ f y) :
    Denotes σ (SelectExpr.create c t f) (if b then x else y) := by
  have hgen : Denotes σ (.Select c t f) (if b then x else y) :=
    denotes_Select.mpr ⟨b, x, y, hc, ht, hf, rfl⟩
  rw [SelectExpr.create.eq_def]
  split
  next cc =>
    obtain ⟨-, rfl⟩ := denotes_Constant.mp hc
    rw [isTrue_mk_ofBool]
    split
    · exact ht
    · exact hf
  next =>
    split
    next htf =>
      subst htf
      rwa [hf.unique ht, ite_self]
    next htf =>
      split
      next hw =>
        obtain rfl : w = 1 := ht.width_eq.symm.trans hw
        obtain ⟨p, rfl⟩ := APInt.eq_ofBool_of_width_one x
        obtain ⟨q, rfl⟩ := APInt.eq_ofBool_of_width_one y
        have hnot := Expr.createIsZero_denotes_not hc
        split
        next ct _ =>
          obtain ⟨-, rfl⟩ := denotes_Constant.mp ht
          rw [isTrue_mk_ofBool]
          split
          next hp =>
            rw [(by decide : ∀ b p q : Bool, p = true → (if b then BitVec.ofBool p
              else BitVec.ofBool q) = BitVec.ofBool b ||| BitVec.ofBool q) b p q hp]
            exact OrExpr.create_denotes hc hf
          next hp =>
            rw [(by decide : ∀ b p q : Bool, ¬p = true → (if b then BitVec.ofBool p
              else BitVec.ofBool q) = BitVec.ofBool (!b) &&& BitVec.ofBool q) b p q hp]
            exact AndExpr.create_denotes hnot hf
        next cf _ =>
          obtain ⟨-, rfl⟩ := denotes_Constant.mp hf
          rw [isTrue_mk_ofBool]
          split
          next hq =>
            rw [(by decide : ∀ b p q : Bool, q = true → (if b then BitVec.ofBool p
              else BitVec.ofBool q) = BitVec.ofBool (!b) ||| BitVec.ofBool p) b p q hq]
            exact OrExpr.create_denotes hnot ht
          next hq =>
            rw [(by decide : ∀ b p q : Bool, ¬q = true → (if b then BitVec.ofBool p
              else BitVec.ofBool q) = BitVec.ofBool b &&& BitVec.ofBool p) b p q hq]
            exact AndExpr.create_denotes hc ht
        next => exact hgen
      next => exact hgen

/-! ## Read -/

/-- The loop invariant: the updates left behind do not touch the index. -/
theorem ReadExpr.rollback_denotes (hul : ul.WellTyped) (hi : Denotes σ index j) (un : UpdateList)
    (hun : un.WellTyped) (heq : un.read σ j.toNat = ul.read σ j.toNat) :
    Denotes σ (ReadExpr.rollback ul index un) (ul.read σ j.toNat) := by
  have hgen : Denotes σ (.Read ul index) (ul.read σ j.toNat) := denotes_Read.mpr ⟨j, hul, hi, rfl⟩
  induction un using UpdateList.nodeInduction with
  | root a => exact hgen
  | extend i v next ih =>
    obtain ⟨hwi, hwi32, hv, hv8, hnext⟩ := hun
    obtain ⟨k, hk⟩ := hwi.denotes (σ := σ) hwi32
    obtain ⟨x, hx⟩ := hv.denotes (σ := σ) hv8
    rw [UpdateList.read_extend, hk.2] at heq
    have hcond := EqExpr.create_denotes hi hk
    rw [ReadExpr.rollback]
    split
    next c hc =>
      rw [hc] at hcond
      obtain ⟨-, rfl⟩ := denotes_Constant.mp hcond
      rw [isTrue_mk_ofBool]
      split
      next hjk =>
        obtain rfl : j = k := by simpa using hjk
        rw [APInt.toNat_mk, if_pos rfl, hx.2] at heq
        rw [← heq]
        simpa using hx
      next hjk =>
        have hne : ¬k.toNat = j.toNat := fun h =>
          hjk (by simpa using (BitVec.eq_of_toNat_eq h).symm)
        rw [APInt.toNat_mk, if_neg hne] at heq
        exact ih hnext heq
    next => exact hgen

theorem ReadExpr.create_denotes (hul : ul.WellTyped) (hi : Denotes σ index j) :
    Denotes σ (ReadExpr.create ul index) (ul.read σ j.toNat) :=
  ReadExpr.rollback_denotes hul hi ul hul rfl

/-! ## Rebuilding a node -/

/-- The node may be rebuilt: its kids are well typed and agree on the widths the
constructor of the node asserts. A cast may narrow here. -/
def Expr.RebuildOk : Expr → Prop
  | .Cast _ e w => e.WellTyped ∧ 0 < w
  | e => e.WellTyped

theorem Expr.WellTyped.rebuildOk (h : e.WellTyped) : e.RebuildOk := by
  cases e with
  | Cast k e w => exact ⟨h.1, Nat.lt_of_lt_of_le h.1.width_pos h.2⟩
  | _ => exact h

/-- The constructor of a node gives an expression with the value the node has. -/
theorem Expr.rebuild_hasValue (he : e.RebuildOk) :
    HasValue σ e.rebuild (e.eval σ) := by
  cases e with
  | Constant c => exact ⟨he, rfl⟩
  | NotOptimized e => exact ⟨he, rfl⟩
  | Read ul i =>
    obtain ⟨j, hj⟩ := (he.2.1 : i.WellTyped).denotes (σ := σ) he.2.2
    rw [Expr.eval_Read, hj.2]
    exact ReadExpr.create_denotes he.1 hj
  | Select c t f =>
    obtain ⟨x, hx⟩ := Expr.WellTyped.denotes (σ := σ) (e := .Select c t f) he rfl
    obtain ⟨b, y, z, hc, ht, hf, rfl⟩ := denotes_Select.mp hx
    rw [hx.2]
    exact SelectExpr.create_denotes hc ht hf
  | Concat l r => exact ConcatExpr.create_hasValue he.1 he.2
  | Extract e off w => exact ExtractExpr.create_hasValue he.1 he.2.1 he.2.2
  | Cast k e w => exact CastExpr.create_hasValue k he.1 he.2
  | Not e => exact NotExpr.create_hasValue he
  | Binary k l r =>
    obtain ⟨z, hz⟩ := Expr.WellTyped.denotes (σ := σ) (e := .Binary k l r) he rfl
    obtain ⟨x, y, hx, hy, rfl⟩ := denotes_Binary.mp hz
    rw [hz.2]
    exact k.create_denotes hx hy
  | Cmp k l r =>
    obtain ⟨z, hz⟩ := Expr.WellTyped.denotes (σ := σ) (e := .Cmp k l r) he rfl
    obtain ⟨n, x, y, hx, hy, rfl⟩ := denotes_Cmp.mp hz
    rw [hz.2]
    exact k.create_denotes hx hy

theorem Expr.RebuildOk.eval_width (h : e.RebuildOk) : (e.eval σ).width = e.width := by
  cases e with
  | Cast k e w => cases k <;> rfl
  | _ => exact Expr.WellTyped.eval_width h

/-- `XExpr::create(args)` computes the operation of `X`: the node `e` stands for
the call, its value is the operation applied to the values of the arguments. -/
theorem Expr.rebuild_correct (σ : Env) (e : Expr) (he : e.RebuildOk) :
    e.rebuild.WellTyped ∧ e.rebuild.width = e.width ∧ e.rebuild.eval σ = e.eval σ := by
  have h := Expr.rebuild_hasValue (σ := σ) he
  exact ⟨h.1, h.width_eq.trans he.eval_width, h.2⟩

/-- Seven divided by the first byte of an array of twos. -/
theorem Expr.rebuild_correct_udiv :
    (Expr.rebuild (.Binary .UDiv (ConstantExpr.alloc 7 8)
        (.Read (.root ⟨0, "x", 1, [], .inl rfl⟩) (ConstantExpr.alloc 0 32)))).eval (fun _ _ => 2)
      = APInt.ofNat 8 3 :=
  (Expr.rebuild_correct (fun _ _ => 2) (.Binary .UDiv (ConstantExpr.alloc 7 8)
      (.Read (.root ⟨0, "x", 1, [], .inl rfl⟩) (ConstantExpr.alloc 0 32)))
    (show Expr.WellTyped _ by decide)).2.2.trans (by decide)

end Xklee
