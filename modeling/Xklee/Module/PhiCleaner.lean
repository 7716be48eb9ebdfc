/-
The phi cleaner: `lib/Module/PhiCleaner.cpp`.

In every block the incoming values of the phi nodes are brought into the order of the first one. An
incoming value that is an earlier phi node of the block is copied at the end of the incoming block,
and the copy takes its place.

An instruction and its result are a number here, which is its register too: `numLocals` are taken.
What the instructions do is left open.
-/
import Xklee.Data.Partial
import Mathlib.Data.List.Basic
import Mathlib.Logic.Function.Basic

set_option autoImplicit false

namespace Xklee

/-! ## Functions -/

/-- An operand: a constant or a register. -/
inductive Operand (V : Type)
  | constant (value : V)
  | register (r : ℕ)

/-- `PHINode`, with its incoming values and blocks. -/
structure PHINode (V : Type) where
  dest : ℕ
  incoming : List (Operand V × ℕ)

namespace PHINode

variable {V : Type}

/-- The incoming blocks. -/
def blocks (phi : PHINode V) : List ℕ := phi.incoming.map Prod.snd

/-- `getBasicBlockIndex`, with `none` for -1. -/
def getBasicBlockIndex (phi : PHINode V) (block : ℕ) : Option ℕ :=
  phi.blocks.findIdx? fun incoming => incoming = block

/-- `getIncomingValueForBlock`, which asserts that there is one. -/
def getIncomingValueForBlock (phi : PHINode V) (block : ℕ) : Option (Operand V) := do
  let i ← phi.getBasicBlockIndex block
  let (value, _) ← phi.incoming[i]?
  return value

end PHINode

/-- The instructions: `BitCastInst` to the type that the operand has, and all others. -/
inductive Opcode (Op : Type)
  | bitCast
  | other (op : Op)

/-- An instruction that is neither a phi node nor a terminator. -/
structure Inst (V Op : Type) where
  dest : ℕ
  opcode : Opcode Op
  operands : List (Operand V)

/-- A terminator. `InvokeInst` has a result. -/
structure TerminatorInst (V Op : Type) where
  dest : ℕ
  op : Op
  operands : List (Operand V)

/-- `BasicBlock`. -/
structure BasicBlock (V Op : Type) where
  phis : List (PHINode V)
  body : List (Inst V Op)
  terminator : TerminatorInst V Op

/-- The blocks of a function, by their numbers, and how many registers they use. -/
structure Code (V Op : Type) where
  blocks : List (BasicBlock V Op)
  numLocals : ℕ

/-- The registers that an operand reads. -/
def Operand.uses {V : Type} : Operand V → List ℕ
  | .constant _ => []
  | .register r => [r]

section

variable {V Op : Type}

/-- The registers that a block writes. -/
def BasicBlock.dests (block : BasicBlock V Op) : List ℕ :=
  block.phis.map PHINode.dest ++ block.body.map Inst.dest ++ [block.terminator.dest]

/-- The operands of a block. -/
def BasicBlock.operands (block : BasicBlock V Op) : List (Operand V) :=
  block.phis.flatMap (fun phi => phi.incoming.map Prod.fst) ++ block.body.flatMap Inst.operands
    ++ block.terminator.operands

end

/-- A function: every instruction has a register of its own. -/
structure LLVMFunction (V Op : Type) extends Code V Op where
  nodup : (blocks.flatMap BasicBlock.dests).Nodup
  dest_lt : ∀ block ∈ blocks, ∀ r ∈ block.dests, r < numLocals
  use_lt : ∀ block ∈ blocks, ∀ operand ∈ block.operands, ∀ r ∈ operand.uses, r < numLocals

/-- All phi nodes of a block have the same predecessors, in any order. -/
def LLVMFunction.SamePredecessors {V Op : Type} (f : LLVMFunction V Op) : Prop :=
  ∀ block ∈ f.blocks, ∀ phi ∈ block.phis, ∀ phi' ∈ block.phis, phi.blocks.Perm phi'.blocks

/-! ## The pass -/

namespace PhiCleanerPass

variable {V Op : Type}

/-- "see if it is out of order" -/
def reorder (reference pi : PHINode V) : Option (PHINode V) :=
  if pi.blocks ≠ reference.blocks then do
    let values ← reference.blocks.mapM pi.getIncomingValueForBlock
    return { pi with incoming := values.zip reference.blocks }
  else some pi

/-- The "move" at the end of a block. -/
def copy (tmp r : ℕ) : Inst V Op := ⟨tmp, .bitCast, [.register r]⟩

/-- `new BitCastInst(.., getTerminator())`. -/
def insertCopy (code : Code V Op) (block r : ℕ) : Code V Op where
  blocks := code.blocks.modify block fun b => { b with body := b.body ++ [copy code.numLocals r] }
  numLocals := code.numLocals + 1

/-- "see if it uses any previously defined phi nodes": the loop over the incoming values. -/
def moveUses (phis : List ℕ) : List (Operand V × ℕ) → Code V Op → List (Operand V × ℕ) × Code V Op
  | [], code => ([], code)
  | (value, block) :: rest, code =>
      match value with
      | .constant _ =>
          let (rest, code) := moveUses phis rest code
          ((value, block) :: rest, code)
      | .register r =>
          if r ∈ phis then
            let (rest, code') := moveUses phis rest (insertCopy code block r)
            ((.register code.numLocals, block) :: rest, code')
          else
            let (rest, code) := moveUses phis rest code
            ((value, block) :: rest, code)

/-- The body of the loop over the phi nodes after the first. -/
def cleanPhi (reference : PHINode V) (phis : List ℕ) (pi : PHINode V) (code : Code V Op) :
    Option (PHINode V × Code V Op) :=
  if reference.incoming.length = pi.incoming.length then do
    let pi ← reorder reference pi
    let (incoming, code) := moveUses phis pi.incoming code
    return ({ pi with incoming := incoming }, code)
  else none

/-- The loop over the phi nodes after the first. -/
def cleanPhis (reference : PHINode V) :
    List ℕ → List (PHINode V) → Code V Op → Option (List (PHINode V) × Code V Op)
  | _, [], code => some ([], code)
  | phis, pi :: rest, code => do
      let (pi, code) ← cleanPhi reference phis pi code
      let (rest, code) ← cleanPhis reference (phis ++ [pi.dest]) rest code
      return (pi :: rest, code)

/-- The body of the loop over the blocks. -/
def cleanBlock (code : Code V Op) (block : ℕ) : Option (Code V Op) := do
  let b ← code.blocks[block]?
  match b.phis with
  | [] => some code
  | reference :: rest => do
      let (rest, code) ← cleanPhis reference [reference.dest] rest code
      return { code with
        blocks := code.blocks.modify block fun b => { b with phis := reference :: rest } }

/-- `runOnFunction`. -/
def runOnFunction (f : Code V Op) : Option (Code V Op) :=
  (List.range f.blocks.length).foldlM cleanBlock f

/-! ## What the pass leaves -/

/-- The function with copies at the ends of its blocks, given by their registers and by what they
copy, and with other phi nodes. -/
def cleaned (f : Code V Op) (copies : ℕ → List (ℕ × ℕ)) (phis : ℕ → List (PHINode V))
    (numLocals : ℕ) : Code V Op where
  blocks := f.blocks.mapIdx fun i b =>
    { b with phis := phis i, body := b.body ++ (copies i).map fun c => copy c.1 c.2 }
  numLocals := numLocals

/-- The register of a phi node of the function. -/
def IsPhi (f : Code V Op) (r : ℕ) : Prop :=
  ∃ block ∈ f.blocks, ∃ phi ∈ block.phis, phi.dest = r

/-- The copies are registers of their own, and copy phi nodes. -/
structure Copies (f : Code V Op) (copies : ℕ → List (ℕ × ℕ)) (numLocals : ℕ) : Prop where
  numLocals_le : f.numLocals ≤ numLocals
  fresh : ∀ block, ∀ c ∈ copies block, f.numLocals ≤ c.1 ∧ c.1 < numLocals
  isPhi : ∀ block, ∀ c ∈ copies block, IsPhi f c.2
  nodup : ∀ block, ((copies block).map Prod.fst).Nodup

/-- What an incoming value of a block has become. -/
inductive Moved (phis : List ℕ) (copies : ℕ → List (ℕ × ℕ)) (block : ℕ) :
    Operand V → Operand V → Prop
  | constant (value : V) : Moved phis copies block (.constant value) (.constant value)
  | same (r : ℕ) (h : r ∉ phis) : Moved phis copies block (.register r) (.register r)
  | copied (r tmp : ℕ) (h : (tmp, r) ∈ copies block) :
      Moved phis copies block (.register r) (.register tmp)

/-- What a phi node has become: at the index that the first one has for a block there is the value
for this block. -/
structure CleanedPhi (reference : PHINode V) (phis : List ℕ) (copies : ℕ → List (ℕ × ℕ))
    (pi pi' : PHINode V) : Prop where
  dest : pi'.dest = pi.dest
  value : ∀ block i, reference.getBasicBlockIndex block = some i →
    ∃ v v', pi.getIncomingValueForBlock block = some v ∧ pi'.incoming[i]? = some (v', block)
      ∧ Moved phis copies block v v'

/-- What the phi nodes of a block have become, those before them being `phis`. -/
inductive CleanedPhis (reference : PHINode V) (copies : ℕ → List (ℕ × ℕ)) :
    List ℕ → List (PHINode V) → List (PHINode V) → Prop
  | nil (phis : List ℕ) : CleanedPhis reference copies phis [] []
  | cons {phis : List ℕ} {pi pi' : PHINode V} {rest rest' : List (PHINode V)}
      (hpi : CleanedPhi reference phis copies pi pi')
      (hrest : CleanedPhis reference copies (phis ++ [pi.dest]) rest rest') :
      CleanedPhis reference copies phis (pi :: rest) (pi' :: rest')

/-- The same for all phi nodes of a block. -/
inductive CleanedBlock (copies : ℕ → List (ℕ × ℕ)) : List (PHINode V) → List (PHINode V) → Prop
  | nil : CleanedBlock copies [] []
  | cons {reference : PHINode V} {rest rest' : List (PHINode V)}
      (h : CleanedPhis reference copies [] (reference :: rest) (reference :: rest')) :
      CleanedBlock copies (reference :: rest) (reference :: rest')

section Growing

variable {copies copies' : ℕ → List (ℕ × ℕ)} (hsub : ∀ block, copies block ⊆ copies' block)
include hsub

variable {phis : List ℕ} {reference : PHINode V} {pis pis' : List (PHINode V)}

theorem Moved.mono {block : ℕ} {v v' : Operand V} (h : Moved phis copies block v v') :
    Moved phis copies' block v v' := by
  cases h with
  | constant value => exact .constant value
  | same r h => exact .same r h
  | copied r tmp h => exact .copied r tmp (hsub block h)

theorem CleanedPhi.mono {pi pi' : PHINode V} (h : CleanedPhi reference phis copies pi pi') :
    CleanedPhi reference phis copies' pi pi' where
  dest := h.dest
  value block i hi := by
    obtain ⟨v, v', hv, hv', hmoved⟩ := h.value block i hi
    exact ⟨v, v', hv, hv', hmoved.mono hsub⟩

theorem CleanedPhis.mono (h : CleanedPhis reference copies phis pis pis') :
    CleanedPhis reference copies' phis pis pis' := by
  induction h with
  | nil phis => exact .nil phis
  | cons hpi _ ih => exact .cons (hpi.mono hsub) ih

theorem CleanedBlock.mono (h : CleanedBlock copies pis pis') :
    CleanedBlock copies' pis pis' := by
  cases h with
  | nil => exact .nil
  | cons h => exact .cons (h.mono hsub)

end Growing

variable {f : Code V Op} {copies : ℕ → List (ℕ × ℕ)} {phis : ℕ → List (PHINode V)} {n : ℕ}

theorem code_ext {c c' : Code V Op} (hblocks : ∀ i : ℕ, c.blocks[i]? = c'.blocks[i]?)
    (hnumLocals : c.numLocals = c'.numLocals) : c = c' := by
  obtain ⟨blocks, numLocals⟩ := c
  obtain ⟨blocks', numLocals'⟩ := c'
  obtain rfl : blocks = blocks' := List.ext_getElem? hblocks
  obtain rfl : numLocals = numLocals' := hnumLocals
  rfl

theorem getElem?_cleaned (block : ℕ) :
    (cleaned f copies phis n).blocks[block]? = (f.blocks[block]?).map fun b =>
      { b with phis := phis block, body := b.body ++ (copies block).map fun c => copy c.1 c.2 } :=
  List.getElem?_mapIdx

theorem cleaned_insertCopy (block r : ℕ) : insertCopy (cleaned f copies phis n) block r
    = cleaned f (Function.update copies block (copies block ++ [(n, r)])) phis (n + 1) := by
  refine code_ext ?_ rfl
  intro i
  rw [getElem?_cleaned]
  change ((cleaned f copies phis n).blocks.modify block _)[i]? = _
  rw [List.getElem?_modify, getElem?_cleaned]
  by_cases hi : block = i
  · subst hi
    cases f.blocks[block]? with
    | none => rfl
    | some b =>
      simp only [Option.map_eq_map, Option.map_some, if_true, Function.update_self, List.map_append,
        List.append_assoc]
      rfl
  · rw [Function.update_of_ne (Ne.symm hi)]
    cases f.blocks[i]? with
    | none => rfl
    | some b => simp only [Option.map_eq_map, Option.map_some, if_neg hi]

theorem cleaned_setPhis (block : ℕ) (pis : List (PHINode V)) :
    { cleaned f copies phis n with
      blocks := (cleaned f copies phis n).blocks.modify block fun b => { b with phis := pis } }
      = cleaned f copies (Function.update phis block pis) n := by
  refine code_ext ?_ rfl
  intro i
  rw [getElem?_cleaned]
  change ((cleaned f copies phis n).blocks.modify block _)[i]? = _
  rw [List.getElem?_modify, getElem?_cleaned]
  by_cases hi : block = i
  · subst hi
    cases f.blocks[block]? with
    | none => rfl
    | some b => simp only [Option.map_eq_map, Option.map_some, if_true, Function.update_self]
  · rw [Function.update_of_ne (Ne.symm hi)]
    cases f.blocks[i]? with
    | none => rfl
    | some b => simp only [Option.map_eq_map, Option.map_some, if_neg hi]

theorem cleaned_original (f : Code V Op) : f = cleaned f (fun _ => [])
    (fun i => ((f.blocks[i]?).map BasicBlock.phis).getD []) f.numLocals := by
  refine code_ext ?_ rfl
  intro i
  rw [getElem?_cleaned]
  cases h : f.blocks[i]? with
  | none => rfl
  | some b => simp only [Option.map_some, Option.getD_some, List.map_nil, List.append_nil]

variable {block r i : ℕ} {earlier : List ℕ} {phi reference pi : PHINode V}

theorem Copies.insert (h : Copies f copies n) (block : ℕ) (hr : IsPhi f r) :
    Copies f (Function.update copies block (copies block ++ [(n, r)])) (n + 1) where
  numLocals_le := Nat.le_succ_of_le h.numLocals_le
  fresh b c hc := by
    by_cases hb : b = block
    · subst hb
      rw [Function.update_self, List.mem_append, List.mem_singleton] at hc
      obtain hc | rfl := hc
      · exact ⟨(h.fresh b c hc).1, Nat.lt_succ_of_lt (h.fresh b c hc).2⟩
      · exact ⟨h.numLocals_le, Nat.lt_succ_self n⟩
    · rw [Function.update_of_ne hb] at hc
      exact ⟨(h.fresh b c hc).1, Nat.lt_succ_of_lt (h.fresh b c hc).2⟩
  isPhi b c hc := by
    by_cases hb : b = block
    · subst hb
      rw [Function.update_self, List.mem_append, List.mem_singleton] at hc
      obtain hc | rfl := hc
      · exact h.isPhi b c hc
      · exact hr
    · rw [Function.update_of_ne hb] at hc
      exact h.isPhi b c hc
  nodup b := by
    by_cases hb : b = block
    · subst hb
      rw [Function.update_self, List.map_append]
      refine List.nodup_append.mpr ⟨h.nodup b, List.pairwise_singleton _ n, ?_⟩
      intro tmp htmp tmp' htmp'
      obtain ⟨c, hc, rfl⟩ := List.mem_map.mp htmp
      rw [List.map_singleton, List.mem_singleton] at htmp'
      exact htmp' ▸ Nat.ne_of_lt (h.fresh b c hc).2
    · rw [Function.update_of_ne hb]
      exact h.nodup b

/-! ## The loops -/

/-- What a part of the pass does: it adds copies. -/
structure Grows (f : Code V Op) (copies copies' : ℕ → List (ℕ × ℕ)) (n' : ℕ) : Prop where
  isCopies : Copies f copies' n'
  subset : ∀ block, copies block ⊆ copies' block

theorem Grows.refl (h : Copies f copies n) : Grows f copies copies n :=
  ⟨h, fun _ => List.Subset.refl _⟩

theorem Grows.trans {copies' copies'' : ℕ → List (ℕ × ℕ)} {n' n'' : ℕ}
    (h : Grows f copies copies' n') (h' : Grows f copies' copies'' n'') :
    Grows f copies copies'' n'' :=
  ⟨h'.isCopies, fun block => List.Subset.trans (h.subset block) (h'.subset block)⟩

theorem Grows.insert (h : Copies f copies n) (block : ℕ) (hr : IsPhi f r) :
    Grows f copies (Function.update copies block (copies block ++ [(n, r)])) (n + 1) := by
  refine ⟨h.insert block hr, ?_⟩
  intro b
  by_cases hb : b = block
  · subst hb
    rw [Function.update_self]
    exact List.subset_append_left _ _
  · rw [Function.update_of_ne hb]
    exact List.Subset.refl _

variable (phis) in
theorem moveUses_spec (hearlier : ∀ r ∈ earlier, IsPhi f r) (incoming : List (Operand V × ℕ))
    (hcopies : Copies f copies n) :
    ∃ incoming' copies' n', moveUses earlier incoming (cleaned f copies phis n)
        = (incoming', cleaned f copies' phis n') ∧ Grows f copies copies' n'
      ∧ List.Forall₂ (fun v v' => v'.2 = v.2 ∧ Moved earlier copies' v.2 v.1 v'.1)
          incoming incoming' := by
  induction incoming generalizing copies n with
  | nil => exact ⟨[], copies, n, rfl, .refl hcopies, .nil⟩
  | cons entry rest ih =>
    obtain ⟨value, block⟩ := entry
    cases value with
    | constant value =>
      obtain ⟨rest', copies', n', heq, hgrows, hrest⟩ := ih hcopies
      refine ⟨(.constant value, block) :: rest', copies', n', ?_, hgrows,
        .cons ⟨rfl, .constant value⟩ hrest⟩
      rw [moveUses, heq]
    | register r =>
      by_cases hr : r ∈ earlier
      · have hinsert := Grows.insert hcopies block (hearlier r hr)
        obtain ⟨rest', copies', n', heq, hgrows, hrest⟩ := ih hinsert.isCopies
        refine ⟨(.register n, block) :: rest', copies', n', ?_, hinsert.trans hgrows,
          .cons ⟨rfl, .copied r n (hgrows.subset block ?_)⟩ hrest⟩
        · rw [moveUses]
          rw [if_pos hr, cleaned_insertCopy, heq]
          rfl
        · rw [Function.update_self]
          exact List.mem_append_right _ List.mem_cons_self
      · obtain ⟨rest', copies', n', heq, hgrows, hrest⟩ := ih hcopies
        refine ⟨(.register r, block) :: rest', copies', n', ?_, hgrows,
          .cons ⟨rfl, .same r hr⟩ hrest⟩
        rw [moveUses]
        rw [if_neg hr, heq]

/-- The index of a block is in the incoming blocks, and the block is at it. -/
theorem getBasicBlockIndex_eq_some (h : phi.getBasicBlockIndex block = some i) :
    phi.blocks[i]? = some block := by
  obtain ⟨hi, heq, -⟩ := List.findIdx?_eq_some_iff_getElem.mp h
  rw [List.getElem?_eq_getElem hi]
  exact congrArg some (of_decide_eq_true heq)

theorem isSome_getBasicBlockIndex :
    (phi.getBasicBlockIndex block).isSome ↔ block ∈ phi.blocks := by
  rw [PHINode.getBasicBlockIndex, List.findIdx?_isSome, List.any_eq_true]
  constructor
  · rintro ⟨b, hb, heq⟩
    exact of_decide_eq_true heq ▸ hb
  · exact fun h => ⟨block, h, decide_eq_true rfl⟩

/-- There is a value for every incoming block. -/
theorem getIncomingValueForBlock_eq (h : phi.getBasicBlockIndex block = some i) :
    ∃ v, phi.incoming[i]? = some (v, block) ∧ phi.getIncomingValueForBlock block = some v := by
  have hblock := getBasicBlockIndex_eq_some h
  rw [PHINode.blocks, List.getElem?_map] at hblock
  obtain ⟨⟨v, b⟩, hentry, rfl⟩ := Option.map_eq_some_iff.mp hblock
  refine ⟨v, hentry, ?_⟩
  rw [PHINode.getIncomingValueForBlock, h]
  change (phi.incoming[i]?).bind _ = _
  rw [hentry]
  rfl

theorem exists_getIncomingValueForBlock (h : block ∈ phi.blocks) :
    ∃ v, phi.getIncomingValueForBlock block = some v := by
  obtain ⟨i, hi⟩ := Option.isSome_iff_exists.mp (isSome_getBasicBlockIndex.mpr h)
  obtain ⟨v, -, hv⟩ := getIncomingValueForBlock_eq hi
  exact ⟨v, hv⟩

/-- The values are in the order of the first phi node. -/
theorem reorder_spec (hperm : reference.blocks.Perm pi.blocks) :
    ∃ pi', reorder reference pi = some pi' ∧ pi'.dest = pi.dest
      ∧ ∀ block i, reference.getBasicBlockIndex block = some i →
        ∃ v, pi.getIncomingValueForBlock block = some v ∧ pi'.incoming[i]? = some (v, block) := by
  by_cases hsame : pi.blocks = reference.blocks
  · refine ⟨pi, if_neg (not_not.mpr hsame), rfl, ?_⟩
    intro block i hi
    have hi' : pi.getBasicBlockIndex block = some i := by
      rw [PHINode.getBasicBlockIndex, hsame]
      exact hi
    obtain ⟨v, hentry, hv⟩ := getIncomingValueForBlock_eq hi'
    exact ⟨v, hv, hentry⟩
  · obtain ⟨values, hvalues⟩ := Partial.exists_mapM (f := pi.getIncomingValueForBlock)
      fun block hblock => exists_getIncomingValueForBlock (hperm.mem_iff.mp hblock)
    refine ⟨{ pi with incoming := values.zip reference.blocks }, ?_, rfl, ?_⟩
    · rw [reorder, if_pos hsame, hvalues]
      rfl
    · intro block i hi
      have hblock := getBasicBlockIndex_eq_some hi
      have hall := Partial.mapM_eq_some_iff.mp hvalues
      obtain ⟨hlt, hat⟩ := List.getElem?_eq_some_iff.mp hblock
      have hlt' : i < values.length := hall.length_eq ▸ hlt
      have hvalue := hall.get hlt hlt'
      rw [List.get_eq_getElem, hat] at hvalue
      refine ⟨_, hvalue, ?_⟩
      change (values.zip reference.blocks)[i]? = _
      rw [List.getElem?_zip_eq_some]
      exact ⟨List.getElem?_eq_getElem hlt', hblock⟩

variable (phis) in
theorem cleanPhi_spec (hearlier : ∀ r ∈ earlier, IsPhi f r)
    (hperm : reference.blocks.Perm pi.blocks) (hcopies : Copies f copies n) :
    ∃ pi' copies' n', cleanPhi reference earlier pi (cleaned f copies phis n)
        = some (pi', cleaned f copies' phis n') ∧ Grows f copies copies' n'
      ∧ CleanedPhi reference earlier copies' pi pi' := by
  have hlength : reference.incoming.length = pi.incoming.length := by
    have h := hperm.length_eq
    rwa [PHINode.blocks, PHINode.blocks, List.length_map, List.length_map] at h
  obtain ⟨pi₁, hreorder, hdest, hvalues⟩ := reorder_spec hperm
  obtain ⟨incoming', copies', n', hmove, hgrows, hall⟩ :=
    moveUses_spec phis hearlier pi₁.incoming hcopies
  refine ⟨{ pi₁ with incoming := incoming' }, copies', n', ?_, hgrows, hdest, ?_⟩
  · rw [cleanPhi, if_pos hlength, hreorder]
    change some ({ pi₁ with incoming := (moveUses earlier pi₁.incoming _).1 },
      (moveUses earlier pi₁.incoming _).2) = _
    rw [hmove]
  · intro block i hi
    obtain ⟨v, hv, hentry⟩ := hvalues block i hi
    obtain ⟨hlt, hat⟩ := List.getElem?_eq_some_iff.mp hentry
    have hlt' : i < incoming'.length := hall.length_eq ▸ hlt
    obtain ⟨hblock, hmoved⟩ := hall.get hlt hlt'
    have hat' : pi₁.incoming.get ⟨i, hlt⟩ = (v, block) := hat
    rw [hat'] at hblock hmoved
    refine ⟨v, incoming'[i].1, hv, ?_, hmoved⟩
    rw [List.getElem?_eq_getElem hlt']
    exact congrArg some (Prod.ext rfl hblock)

variable (phis) in
theorem cleanPhis_spec (hearlier : ∀ r ∈ earlier, IsPhi f r) {pis : List (PHINode V)}
    (hpis : ∀ pi ∈ pis, IsPhi f pi.dest ∧ reference.blocks.Perm pi.blocks)
    (hcopies : Copies f copies n) :
    ∃ pis' copies' n', cleanPhis reference earlier pis (cleaned f copies phis n)
        = some (pis', cleaned f copies' phis n') ∧ Grows f copies copies' n'
      ∧ CleanedPhis reference copies' earlier pis pis' := by
  induction pis generalizing earlier copies n with
  | nil => exact ⟨[], copies, n, rfl, .refl hcopies, .nil earlier⟩
  | cons pi rest ih =>
    obtain ⟨⟨hpi, hperm⟩, hrest⟩ := List.forall_mem_cons.mp hpis
    obtain ⟨pi', copies₁, n₁, heq, hgrows, hcleaned⟩ :=
      cleanPhi_spec phis hearlier hperm hcopies
    have hearlier' : ∀ r ∈ earlier ++ [pi.dest], IsPhi f r := by
      intro r hr
      obtain hr | hr := List.mem_append.mp hr
      · exact hearlier r hr
      · exact List.mem_singleton.mp hr ▸ hpi
    obtain ⟨rest', copies', n', heq', hgrows', hcleaned'⟩ := ih hearlier' hrest hgrows.isCopies
    refine ⟨pi' :: rest', copies', n', ?_, hgrows.trans hgrows',
      .cons (hcleaned.mono hgrows'.subset) hcleaned'⟩
    rw [cleanPhis, heq]
    change (cleanPhis reference (earlier ++ [pi'.dest]) rest _).bind _ = _
    rw [hcleaned.dest, heq']
    rfl

/-- The first phi node stays as it is. -/
theorem cleanedPhi_reference (reference : PHINode V) (copies : ℕ → List (ℕ × ℕ)) :
    CleanedPhi reference [] copies reference reference where
  dest := rfl
  value block i hi := by
    obtain ⟨v, hentry, hv⟩ := getIncomingValueForBlock_eq hi
    refine ⟨v, v, hv, hentry, ?_⟩
    cases v with
    | constant value => exact .constant value
    | register r => exact .same r List.not_mem_nil

theorem cleanBlock_spec {b : BasicBlock V Op} (hb : f.blocks[block]? = some b)
    (hphis : phis block = b.phis)
    (hsame : ∀ phi ∈ b.phis, ∀ phi' ∈ b.phis, phi.blocks.Perm phi'.blocks)
    (hcopies : Copies f copies n) :
    ∃ pis' copies' n', cleanBlock (cleaned f copies phis n) block
        = some (cleaned f copies' (Function.update phis block pis') n')
      ∧ Grows f copies copies' n' ∧ CleanedBlock copies' b.phis pis' := by
  have hisPhi : ∀ phi ∈ b.phis, IsPhi f phi.dest :=
    fun phi hphi => ⟨b, List.mem_of_getElem? hb, phi, hphi, rfl⟩
  cases hpis : b.phis with
  | nil =>
    refine ⟨[], copies, n, ?_, .refl hcopies, .nil⟩
    have hupdate : Function.update phis block [] = phis := by
      rw [Function.update_eq_self_iff, hphis, hpis]
    rw [cleanBlock, getElem?_cleaned, hb, hupdate]
    change (match phis block with | [] => _ | reference :: rest => _) = _
    rw [hphis, hpis]
  | cons reference rest =>
    rw [hpis] at hsame hisPhi
    have hreference := hisPhi reference List.mem_cons_self
    obtain ⟨rest', copies', n', heq, hgrows, hcleaned⟩ := cleanPhis_spec phis
      (List.forall_mem_singleton.mpr hreference)
      (fun pi hpi => ⟨hisPhi pi (List.mem_cons_of_mem reference hpi),
        hsame reference List.mem_cons_self pi (List.mem_cons_of_mem reference hpi)⟩) hcopies
    refine ⟨reference :: rest', copies', n', ?_, hgrows,
      .cons (.cons (cleanedPhi_reference reference copies') hcleaned)⟩
    rw [cleanBlock, getElem?_cleaned, hb, ← cleaned_setPhis]
    change (match phis block with | [] => _ | reference :: rest => _) = _
    rw [hphis, hpis]
    change (cleanPhis reference [reference.dest] rest (cleaned f copies phis n)).bind _ = _
    rw [heq]
    rfl

/-- What the pass leaves: the copies at the ends of the blocks and the cleaned phi nodes. -/
structure Cleaned (f : Code V Op) (copies : ℕ → List (ℕ × ℕ)) (phis : ℕ → List (PHINode V))
    (n : ℕ) : Prop where
  isCopies : Copies f copies n
  phis : ∀ block b, f.blocks[block]? = some b → CleanedBlock copies b.phis (phis block)

theorem runOnFunction_spec (f : LLVMFunction V Op) (hsame : f.SamePredecessors) :
    ∃ copies phis n, runOnFunction f.toCode = some (cleaned f.toCode copies phis n)
      ∧ Cleaned f.toCode copies phis n := by
  -- the blocks below `k` are cleaned, and the others are as they were
  have hloop : ∀ k ≤ f.blocks.length, ∃ copies phis n,
      (List.range k).foldlM cleanBlock f.toCode = some (cleaned f.toCode copies phis n)
      ∧ Copies f.toCode copies n
      ∧ (∀ block b, f.blocks[block]? = some b → block < k → CleanedBlock copies b.phis (phis block))
      ∧ ∀ block b, f.blocks[block]? = some b → k ≤ block → phis block = b.phis := by
    intro k hk
    induction k with
    | zero =>
      refine ⟨fun _ => [], fun i => ((f.blocks[i]?).map BasicBlock.phis).getD [], f.numLocals,
        congrArg some (cleaned_original f.toCode), ⟨Nat.le_refl _, by simp, by simp, by simp⟩, by simp, ?_⟩
      intro block b hb _
      change ((f.blocks[block]?).map BasicBlock.phis).getD [] = b.phis
      rw [hb]
      rfl
    | succ k ih =>
      obtain ⟨copies, phis, n, heq, hcopies, hdone, hrest⟩ := ih (Nat.le_of_succ_le hk)
      have hb : f.blocks[k]? = some f.blocks[k] := List.getElem?_eq_getElem hk
      obtain ⟨pis', copies', n', hclean, hgrows, hcleaned⟩ := cleanBlock_spec hb
        (hrest k _ hb (Nat.le_refl _)) (hsame _ (List.mem_of_getElem? hb)) hcopies
      refine ⟨copies', Function.update phis k pis', n', ?_, hgrows.isCopies, ?_, ?_⟩
      · rw [List.range_succ, List.foldlM_append, heq]
        change (cleanBlock (cleaned f.toCode copies phis n) k).bind _ = _
        rw [hclean]
        rfl
      · intro block b hb' hlt
        by_cases hblock : block = k
        · subst hblock
          rw [Function.update_self]
          rw [hb'] at hb
          exact Option.some.inj hb ▸ hcleaned
        · rw [Function.update_of_ne hblock]
          exact (hdone block b hb' (by omega)).mono hgrows.subset
      · intro block b hb' hle
        rw [Function.update_of_ne (by omega)]
        exact hrest block b hb' (by omega)
  obtain ⟨copies, phis, n, heq, hcopies, hdone, -⟩ := hloop f.blocks.length (Nat.le_refl _)
  refine ⟨copies, phis, n, heq, hcopies, ?_⟩
  intro block b hb
  exact hdone block b hb (List.getElem?_eq_some_iff.mp hb).1

end PhiCleanerPass

end Xklee
