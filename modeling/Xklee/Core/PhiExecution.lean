/-
The execution of phi nodes: `Executor::transferToBasicBlock` and `Instruction::PHI` in
`Executor::executeInstruction` of `lib/Core/Executor.cpp`.

The executor computes one incoming index when it enters a block, from the first phi node, and then
executes the phi nodes like other instructions. LLVM's phi nodes all get their values at once, each
for the block that was left. After the phi cleaner the two agree: a function and what the pass leaves
of it run alike, up to the registers of the copies.

What the other instructions do is left open: `Machine` says what they make of the values of their
operands and of the rest of the state.
-/
import Xklee.Data.ParallelMove
import Xklee.Module.PhiCleaner
import Mathlib.Data.List.Nodup
import Mathlib.Data.List.Pairwise

set_option autoImplicit false

namespace Xklee

/-! ## Execution -/

/-- What the instructions do with the values of their operands. The result is `none` where there is
no value, and the block that follows a terminator is `none` where the function is left. -/
structure Machine (V Op W : Type) where
  execute : Op → List V → W → Option (Option V × W)
  terminate : Op → List V → W → Option (Option V × Option ℕ × W)

/-- The state before the instructions of `block` that are no phi nodes. -/
structure Frame (V W : Type) where
  block : Option ℕ
  incomingBBIndex : Option ℕ
  locals : ℕ → V
  world : W

namespace PhiExecution

variable {V Op W : Type}

/-- `eval`. -/
def eval : Operand V → (ℕ → V) → V
  | .constant value, _ => value
  | .register r, locals => locals r

/-- `bindLocal`, where there is a result. -/
def bindLocal (locals : ℕ → V) (dest : ℕ) : Option V → ℕ → V
  | none => locals
  | some value => Function.update locals dest value

variable (m : Machine V Op W)

/-- `executeInstruction`. -/
def executeInstruction (s : Frame V W) (i : Inst V Op) : Option (Frame V W) :=
  let values := i.operands.map fun operand => eval operand s.locals
  match i.opcode with
  | .bitCast =>
      match values with
      | [value] => some { s with locals := bindLocal s.locals i.dest (some value) }
      | _ => none
  | .other op => do
      let (result, world) ← m.execute op values s.world
      return { s with locals := bindLocal s.locals i.dest result, world := world }

/-- `executeInstruction` for a terminator: the state and the block that follows. -/
def executeTerminator (s : Frame V W) (i : TerminatorInst V Op) :
    Option (Frame V W × Option ℕ) := do
  let values := i.operands.map fun operand => eval operand s.locals
  let (result, next, world) ← m.terminate i.op values s.world
  return ({ s with locals := bindLocal s.locals i.dest result, world := world }, next)

/-- `transferToBasicBlock`, for the phi nodes that the block begins with. -/
def transferToBasicBlock (phis : List (PHINode V)) (src : ℕ) (s : Frame V W) : Frame V W :=
  match phis with
  | [] => s
  | first :: _ => { s with incomingBBIndex := first.getBasicBlockIndex src }

/-- `Instruction::PHI`. `eval` asserts that there is an operand. -/
def executePhi (s : Frame V W) (phi : PHINode V) : Option (Frame V W) := do
  let index ← s.incomingBBIndex
  let (value, _) ← phi.incoming[index]?
  return { s with locals := bindLocal s.locals phi.dest (some (eval value s.locals)) }

/-- The executor enters a block. -/
def enter (phis : List (PHINode V)) (src : ℕ) (s : Frame V W) : Option (Frame V W) :=
  phis.foldlM executePhi (transferToBasicBlock phis src s)

/-- LLVM's meaning of entering a block: every phi node gets its value for the block that was left,
all at once. -/
def enterSimultaneously (phis : List (PHINode V)) (src : ℕ) (s : Frame V W) :
    Option (Frame V W) := do
  let moves ← phis.mapM fun phi => (phi.getIncomingValueForBlock src).map fun v => (phi.dest, v)
  return { s with locals := simultaneousMoves eval moves s.locals }

/-- From one block to the next: the instructions of the block, its terminator, and the phi nodes of
the block that follows. -/
def step (enter : List (PHINode V) → ℕ → Frame V W → Option (Frame V W)) (f : Code V Op)
    (s : Frame V W) : Option (Frame V W) :=
  match s.block with
  | none => some s
  | some src => do
      let block ← f.blocks[src]?
      let s ← block.body.foldlM (executeInstruction m) s
      let (s, next) ← executeTerminator m s block.terminator
      match next with
      | none => some { s with block := none }
      | some dst => do
          let next ← f.blocks[dst]?
          let s ← enter next.phis src s
          return { s with block := some dst }

/-- A number of blocks. -/
def run (enter : List (PHINode V) → ℕ → Frame V W → Option (Frame V W)) (f : Code V Op) :
    ℕ → Frame V W → Option (Frame V W)
  | 0, s => some s
  | n + 1, s => (step m enter f s).bind (run enter f n)

/-- Two states that differ in registers from `n` on only. -/
structure Agrees (n : ℕ) (s s' : Frame V W) : Prop where
  block : s'.block = s.block
  locals : ∀ r < n, s'.locals r = s.locals r
  world : s'.world = s.world

/-! ## Phi nodes as moves -/

variable {m}

/-- The executor's phi nodes are moves, one after the other. -/
theorem foldlM_executePhi {index : ℕ} {phis : List (PHINode V)} {s : Frame V W}
    (hindex : s.incomingBBIndex = some index) : phis.foldlM executePhi s
      = (phis.mapM fun phi => (phi.incoming[index]?).map fun v => (phi.dest, v.1)).map fun moves =>
        { s with locals := sequentialMoves eval moves s.locals } := by
  induction phis generalizing s with
  | nil => rfl
  | cons phi phis ih =>
    obtain ⟨block, incomingBBIndex, locals, world⟩ := s
    obtain rfl : incomingBBIndex = some index := hindex
    rw [List.foldlM_cons, List.mapM_cons]
    change ((phi.incoming[index]?).bind _).bind _ = _
    cases hv : phi.incoming[index]? with
    | none => rfl
    | some v =>
      -- the first phi node is executed, and the others are moves in the state after it
      change phis.foldlM executePhi _ = _
      rw [ih rfl]
      cases phis.mapM fun phi => (phi.incoming[index]?).map fun v => (phi.dest, v.1) with
      | none => rfl
      | some moves => rfl

/-- The values that the phi nodes of a block get in both ways, when they have been cleaned. -/
theorem cleanedPhis_moves {n : ℕ} {reference : PHINode V} {copies : ℕ → List (ℕ × ℕ)}
    {earlier : List ℕ} {pis pis' : List (PHINode V)} {src i : ℕ} {locals locals' : ℕ → V}
    (h : PhiCleanerPass.CleanedPhis reference copies earlier pis pis')
    (hi : reference.getBasicBlockIndex src = some i) (hearlier : ∀ r ∈ earlier, r < n)
    (hdest : ∀ pi ∈ pis, pi.dest < n) (hnodup : (pis.map PHINode.dest).Nodup)
    (huse : ∀ pi ∈ pis, ∀ v ∈ pi.incoming, ∀ r ∈ v.1.uses, r < n)
    (hfresh : ∀ c ∈ copies src, n ≤ c.1) (hlocals : ∀ r < n, locals' r = locals r)
    (hcopied : ∀ c ∈ copies src, locals' c.1 = locals c.2) :
    ∃ moves moves',
      (pis.mapM fun phi => (phi.getIncomingValueForBlock src).map fun v => (phi.dest, v)) = some moves
      ∧ (pis'.mapM fun phi => (phi.incoming[i]?).map fun v => (phi.dest, v.1)) = some moves'
      ∧ List.Forall₂ (fun move move' => move'.1 = move.1 ∧ eval move'.2 locals' = eval move.2 locals)
        moves moves'
      ∧ moves'.map Prod.fst = pis.map PHINode.dest
      ∧ (∀ move' ∈ moves', ∀ r ∈ earlier, r ∉ move'.2.uses)
      ∧ moves'.Pairwise (MoveApart eval) := by
  induction h with
  | nil earlier => exact ⟨[], [], rfl, rfl, .nil, rfl, by simp, .nil⟩
  | @cons earlier pi pi' rest rest' hpi _ ih =>
    obtain ⟨hdestPi, hdestRest⟩ := List.forall_mem_cons.mp hdest
    obtain ⟨husePi, huseRest⟩ := List.forall_mem_cons.mp huse
    rw [List.map_cons, List.nodup_cons] at hnodup
    have hearlier' : ∀ r ∈ earlier ++ [pi.dest], r < n := by
      intro r hr
      obtain hr | hr := List.mem_append.mp hr
      · exact hearlier r hr
      · exact List.mem_singleton.mp hr ▸ hdestPi
    obtain ⟨moves, moves', hmoves, hmoves', hall, hdests, hnot, hapart⟩ :=
      ih hearlier' hdestRest hnodup.2 huseRest
    obtain ⟨v, v', hv, hv', hmoved⟩ := hpi.value src i hi
    -- the value is one of the incoming values, so it reads a register of the function
    have hvuse : ∀ r ∈ v.uses, r < n := by
      obtain ⟨index, -, hvalue⟩ := Option.bind_eq_some_iff.mp hv
      obtain ⟨entry, hentry, heq⟩ := Option.bind_eq_some_iff.mp hvalue
      rw [← Option.some.inj heq]
      exact husePi entry (List.mem_of_getElem? hentry)
    have heval : eval v' locals' = eval v locals := by
      cases hmoved with
      | constant value => rfl
      | same r _ => exact hlocals r (hvuse r List.mem_cons_self)
      | copied r tmp hc => exact hcopied _ hc
    have hnotPi : ∀ r ∈ earlier, r ∉ v'.uses := by
      intro r hr hmem
      cases hmoved with
      | constant value => exact absurd hmem List.not_mem_nil
      | same r' hnot' =>
        obtain rfl := List.mem_singleton.mp hmem
        exact hnot' hr
      | copied r' tmp hc =>
        obtain rfl := List.mem_singleton.mp hmem
        exact absurd (hfresh _ hc) (Nat.not_le.mpr (hearlier r hr))
    refine ⟨(pi.dest, v) :: moves, (pi'.dest, v') :: moves', ?_, ?_, .cons ⟨hpi.dest, heval⟩ hall, ?_,
      ?_, .cons ?_ hapart⟩
    · rw [List.mapM_cons, hv, hmoves]
      rfl
    · rw [List.mapM_cons, hv', hmoves']
      rfl
    · rw [List.map_cons, List.map_cons, hdests, hpi.dest]
    · intro move' hmove' r hr
      obtain rfl | hmove' := List.mem_cons.mp hmove'
      · exact hnotPi r hr
      · exact hnot move' hmove' r (List.mem_append_left _ hr)
    · intro move' hmove'
      have hreads : pi'.dest ∉ move'.2.uses :=
        hnot move' hmove' pi'.dest (List.mem_append_right _ (List.mem_singleton.mpr hpi.dest))
      refine ⟨?_, ?_⟩
      · intro heq
        refine hnodup.1 ?_
        have heq' : move'.1 = pi'.dest := heq
        rw [← hdests, ← hpi.dest, ← heq']
        exact List.mem_map_of_mem hmove'
      · intro regs value
        revert hreads
        cases move'.2 with
        | constant value => exact fun _ => rfl
        | register r =>
          intro hr
          change Function.update regs pi'.dest value r = regs r
          rw [Function.update_of_ne]
          rintro rfl
          exact hr List.mem_cons_self

/-! ## Instructions -/

section Agree

variable {n : ℕ} {s s' : Frame V W}

theorem bindLocal_agrees {locals locals' : ℕ → V} (h : ∀ r < n, locals' r = locals r) (dest : ℕ)
    (result : Option V) : ∀ r < n, bindLocal locals' dest result r = bindLocal locals dest result r := by
  intro r hr
  cases result with
  | none => exact h r hr
  | some value =>
    change Function.update locals' dest value r = Function.update locals dest value r
    by_cases heq : r = dest
    · rw [heq, Function.update_self, Function.update_self]
    · rw [Function.update_of_ne heq, Function.update_of_ne heq, h r hr]

theorem eval_agrees {locals locals' : ℕ → V} (h : ∀ r < n, locals' r = locals r)
    {operands : List (Operand V)} (huse : ∀ operand ∈ operands, ∀ r ∈ operand.uses, r < n) :
    (operands.map fun operand => eval operand locals')
      = operands.map fun operand => eval operand locals := by
  refine List.map_congr_left ?_
  intro operand hoperand
  cases operand with
  | constant value => rfl
  | register r => exact h r (huse _ hoperand r List.mem_cons_self)

variable (m)

theorem executeInstruction_agrees (h : Agrees n s s') {i : Inst V Op}
    (huse : ∀ operand ∈ i.operands, ∀ r ∈ operand.uses, r < n) :
    Option.Rel (Agrees n) (executeInstruction m s i) (executeInstruction m s' i) := by
  have hvalues := eval_agrees h.locals huse
  unfold executeInstruction
  rw [hvalues, h.world]
  cases i.opcode with
  | bitCast =>
    rcases i.operands.map fun operand => eval operand s.locals with _ | ⟨value, _ | _⟩
    · exact .none
    · exact .some ⟨h.block, bindLocal_agrees h.locals i.dest (some value), rfl⟩
    · exact .none
  | other op =>
    change Option.Rel _ ((m.execute op _ s.world).bind _) ((m.execute op _ s.world).bind _)
    cases m.execute op (i.operands.map fun operand => eval operand s.locals) s.world with
    | none => exact .none
    | some answer => exact .some ⟨h.block, bindLocal_agrees h.locals i.dest answer.1, rfl⟩

theorem body_agrees {body : List (Inst V Op)} (h : Agrees n s s')
    (huse : ∀ i ∈ body, ∀ operand ∈ i.operands, ∀ r ∈ operand.uses, r < n) :
    Option.Rel (Agrees n) (body.foldlM (executeInstruction m) s)
      (body.foldlM (executeInstruction m) s') := by
  refine Partial.foldlM_rel (List.forall₂_same.mpr ?_) h
  intro i hi t t' ht
  exact executeInstruction_agrees m ht (huse i hi)

end Agree

/-- The copies are moves, one after the other. -/
theorem foldlM_copies (m : Machine V Op W) (copies : List (ℕ × ℕ)) (s : Frame V W) :
    (copies.map fun c => PhiCleanerPass.copy c.1 c.2).foldlM (executeInstruction m) s
      = some { s with locals := sequentialMoves (fun r locals => locals r) copies s.locals } := by
  induction copies generalizing s with
  | nil => rfl
  | cons c copies ih =>
    rw [List.map_cons, List.foldlM_cons]
    change (copies.map fun c => PhiCleanerPass.copy c.1 c.2).foldlM (executeInstruction m) _ = _
    rw [ih]
    rfl

/-! ## From block to block -/

section Function

open PhiCleanerPass (IsPhi Copies Cleaned CleanedBlock cleaned)

variable {f : LLVMFunction V Op} {b : BasicBlock V Op}

theorem isPhi_lt {r : ℕ} (h : IsPhi f.toCode r) : r < f.numLocals := by
  obtain ⟨block, hblock, phi, hphi, rfl⟩ := h
  refine f.dest_lt block hblock phi.dest ?_
  unfold BasicBlock.dests
  exact List.mem_append_left _ (List.mem_append_left _ (List.mem_map_of_mem hphi))

/-- A terminator writes no register of a phi node. -/
theorem isPhi_ne_terminator {r : ℕ} (h : IsPhi f.toCode r) (hb : b ∈ f.blocks) :
    r ≠ b.terminator.dest := by
  obtain ⟨block, hblock, phi, hphi, rfl⟩ := h
  obtain ⟨hnodup, hapart⟩ := List.nodup_flatMap.mp f.nodup
  have hphiDest : phi.dest ∈ block.phis.map PHINode.dest ++ block.body.map Inst.dest :=
    List.mem_append_left _ (List.mem_map_of_mem hphi)
  intro heq
  by_cases hsame : block = b
  · subst hsame
    -- one block writes no register twice
    exact (List.nodup_append.mp (hnodup block hblock)).2.2 _ hphiDest _ List.mem_cons_self heq
  · have hsymm : Std.Symm (Function.onFun List.Disjoint (@BasicBlock.dests V Op)) :=
      ⟨fun _ _ hxy _ hx hy => hxy hy hx⟩
    have hdisjoint := hapart.forall hblock hb hsame
    refine hdisjoint (List.mem_append_left _ hphiDest) ?_
    rw [heq]
    exact List.mem_append_right _ List.mem_cons_self

theorem phis_nodup (hb : b ∈ f.blocks) : (b.phis.map PHINode.dest).Nodup := by
  have hnodup := (List.nodup_flatMap.mp f.nodup).1 b hb
  unfold BasicBlock.dests at hnodup
  exact (List.nodup_append.mp (List.nodup_append.mp hnodup).1).1

/-- The states when a block is left: the copies hold what they are copies of. -/
structure Left (n : ℕ) (copies : List (ℕ × ℕ)) (s s' : Frame V W) : Prop where
  agrees : Agrees n s s'
  copied : ∀ c ∈ copies, s'.locals c.1 = s.locals c.2

variable {copies : ℕ → List (ℕ × ℕ)} {phis : ℕ → List (PHINode V)} {n src dst : ℕ}
  {s s' : Frame V W}

/-- The copies do not touch each other, nor what they copy. -/
theorem copies_apart (h : Copies f.toCode copies n) :
    (copies src).Pairwise (MoveApart fun r (locals : ℕ → V) => locals r) := by
  have hnodup := List.pairwise_map.mp (h.nodup src)
  refine hnodup.imp_of_mem ?_
  intro c c' hc hc' hne
  refine ⟨hne.symm, fun regs value => Function.update_of_ne ?_ ..⟩
  have hlt := isPhi_lt (h.isPhi src c' hc')
  have hle := (h.fresh src c hc).1
  omega

variable (m)

theorem body_left (h : Copies f.toCode copies n) (hb : b ∈ f.blocks) (hs : Agrees f.numLocals s s') :
    Option.Rel (Left f.numLocals (copies src)) (b.body.foldlM (executeInstruction m) s)
      ((b.body ++ (copies src).map fun c : ℕ × ℕ => PhiCleanerPass.copy c.1 c.2).foldlM
        (executeInstruction m) s') := by
  have huse : ∀ i ∈ b.body, ∀ operand ∈ i.operands, ∀ r ∈ operand.uses, r < f.numLocals := by
    intro i hi operand hoperand
    refine f.use_lt b hb operand ?_
    unfold BasicBlock.operands
    exact List.mem_append_left _ (List.mem_append_right _ (List.mem_flatMap.mpr ⟨i, hi, hoperand⟩))
  have hbody := body_agrees m hs huse
  rw [List.foldlM_append, ← bind_pure (b.body.foldlM (executeInstruction m) s)]
  refine Partial.bind_rel hbody ?_
  intro t t' ht
  rw [foldlM_copies]
  refine .some ⟨⟨ht.block, ?_, ht.world⟩, ?_⟩
  · intro r hr
    rw [← ht.locals r hr]
    change sequentialMoves (fun r locals => locals r) (copies src) t'.locals r = _
    refine sequentialMoves_of_notMem ?_
    intro c hc heq
    have hle := (h.fresh src c hc).1
    omega
  · intro c hc
    rw [← ht.locals c.2 (isPhi_lt (h.isPhi src c hc))]
    exact sequentialMoves_of_mem (copies_apart h) hc

theorem terminator_left (h : Copies f.toCode copies n) (hb : b ∈ f.blocks)
    (hs : Left f.numLocals (copies src) s s') :
    Option.Rel (fun t t' => Left f.numLocals (copies src) t.1 t'.1 ∧ t'.2 = t.2)
      (executeTerminator m s b.terminator) (executeTerminator m s' b.terminator) := by
  have hvalues := @eval_agrees _ _ _ _ hs.agrees.locals b.terminator.operands (by
    intro operand hoperand
    refine f.use_lt b hb operand ?_
    unfold BasicBlock.operands
    exact List.mem_append_right _ hoperand)
  unfold executeTerminator
  rw [hvalues, hs.agrees.world]
  change Option.Rel _ ((m.terminate _ _ s.world).bind _) ((m.terminate _ _ s.world).bind _)
  cases m.terminate b.terminator.op (b.terminator.operands.map fun operand => eval operand s.locals)
    s.world with
  | none => exact .none
  | some answer =>
    obtain ⟨result, next, world⟩ := answer
    refine .some ⟨⟨⟨hs.agrees.block, bindLocal_agrees hs.agrees.locals _ result, rfl⟩, ?_⟩, rfl⟩
    intro c hc
    have hdest : c.1 ≠ b.terminator.dest := by
      have hlt := f.dest_lt b hb b.terminator.dest (List.mem_append_right _ List.mem_cons_self)
      have hle := (h.fresh src c hc).1
      omega
    cases result with
    | none => exact hs.copied c hc
    | some value =>
      change Function.update s'.locals b.terminator.dest value c.1
        = Function.update s.locals b.terminator.dest value c.2
      rw [Function.update_of_ne hdest, Function.update_of_ne
        (isPhi_ne_terminator (h.isPhi src c hc) hb)]
      exact hs.copied c hc

omit m in
/-- The executor gives every phi node the value that it gets in LLVM's meaning, for every block that
is left and all register contents. -/
theorem enter_agrees (h : Cleaned f.toCode copies phis n) (hb : f.blocks[dst]? = some b)
    (hs : Left f.numLocals (copies src) s s') :
    Option.Rel (Agrees f.numLocals) (enterSimultaneously b.phis src s)
      (enter (phis dst) src s') := by
  have hmem := List.mem_of_getElem? hb
  have hnodup := phis_nodup hmem
  have hdest : ∀ pi ∈ b.phis, pi.dest < f.numLocals :=
    fun pi hpi => isPhi_lt ⟨b, hmem, pi, hpi, rfl⟩
  have huse : ∀ pi ∈ b.phis, ∀ v ∈ pi.incoming, ∀ r ∈ v.1.uses, r < f.numLocals := by
    intro pi hpi v hv
    refine f.use_lt b hmem v.1 ?_
    unfold BasicBlock.operands
    exact List.mem_append_left _ (List.mem_append_left _
      (List.mem_flatMap.mpr ⟨pi, hpi, List.mem_map_of_mem hv⟩))
  have hcleaned := h.phis dst b hb
  generalize b.phis = pis at hnodup hdest huse hcleaned
  generalize phis dst = pis' at hcleaned
  cases hcleaned with
  | nil => exact .some hs.agrees
  | @cons reference rest rest' hphis =>
    unfold enter enterSimultaneously
    cases hi : reference.getBasicBlockIndex src with
    | none =>
      -- the block that is left is no predecessor
      rw [List.mapM_cons, PHINode.getIncomingValueForBlock, transferToBasicBlock, hi,
        List.foldlM_cons]
      exact .none
    | some i =>
      obtain ⟨moves, moves', hmoves, hmoves', hall, -, -, hapart⟩ :=
        cleanedPhis_moves hphis hi (by simp) hdest hnodup huse
          (fun c hc => (h.isCopies.fresh src c hc).1) hs.agrees.locals hs.copied
      have hindex : (transferToBasicBlock (reference :: rest') src s').incomingBBIndex = some i := hi
      rw [hmoves, foldlM_executePhi hindex, hmoves']
      refine .some ⟨hs.agrees.block, ?_, hs.agrees.world⟩
      intro r hr
      change sequentialMoves eval moves' s'.locals r = simultaneousMoves eval moves s.locals r
      rw [sequentialMoves_eq hapart]
      exact simultaneousMoves_agree hall (hs.agrees.locals r hr)

theorem step_agrees (h : Cleaned f.toCode copies phis n) (hs : Agrees f.numLocals s s') :
    Option.Rel (Agrees f.numLocals) (step m enterSimultaneously f.toCode s)
      (step m enter (cleaned f.toCode copies phis n) s') := by
  unfold step
  rw [hs.block]
  cases s.block with
  | none => exact .some hs
  | some src =>
    change Option.Rel _ ((f.blocks[src]?).bind _)
      (((cleaned f.toCode copies phis n).blocks[src]?).bind _)
    rw [PhiCleanerPass.getElem?_cleaned]
    cases hb : f.blocks[src]? with
    | none => exact .none
    | some b =>
      have hmem := List.mem_of_getElem? hb
      rw [Option.map_some, Option.bind_some, Option.bind_some]
      refine Partial.bind_rel (body_left m h.isCopies hmem hs) ?_
      intro t t' ht
      refine Partial.bind_rel (terminator_left m h.isCopies hmem ht) ?_
      rintro ⟨t, next⟩ ⟨t', next'⟩ ⟨ht, hnext⟩
      obtain rfl : next' = next := hnext
      cases next' with
      | none => exact .some ⟨rfl, ht.agrees.locals, ht.agrees.world⟩
      | some dst =>
        change Option.Rel _ ((f.blocks[dst]?).bind _)
          (((cleaned f.toCode copies phis n).blocks[dst]?).bind _)
        rw [PhiCleanerPass.getElem?_cleaned]
        cases hdst : f.blocks[dst]? with
        | none => exact .none
        | some b' =>
          rw [Option.map_some, Option.bind_some, Option.bind_some]
          refine Partial.bind_rel (enter_agrees h hdst ht) ?_
          intro u u' hu
          exact .some ⟨rfl, hu.locals, hu.world⟩

theorem run_agrees (h : Cleaned f.toCode copies phis n) (hs : Agrees f.numLocals s s') (k : ℕ) :
    Option.Rel (Agrees f.numLocals) (run m enterSimultaneously f.toCode k s)
      (run m enter (cleaned f.toCode copies phis n) k s') := by
  induction k generalizing s s' with
  | zero => exact .some hs
  | succ k ih => exact Partial.bind_rel (step_agrees m h hs) fun _ _ => ih

end Function

/-- The phi cleaner succeeds, and what it leaves runs in the executor as the function does in LLVM's
meaning: through the same blocks, with the same registers and the same state, whatever the
instructions do. -/
theorem runOnFunction_agrees (f : LLVMFunction V Op) (hsame : f.SamePredecessors) :
    ∃ f', PhiCleanerPass.runOnFunction f.toCode = some f'
      ∧ ∀ (m : Machine V Op W) (s s' : Frame V W), Agrees f.numLocals s s' → ∀ k : ℕ,
        Option.Rel (Agrees f.numLocals) (run m enterSimultaneously f.toCode k s)
          (run m enter f' k s') := by
  obtain ⟨copies, phis, n, heq, hcleaned⟩ := PhiCleanerPass.runOnFunction_spec f hsame
  exact ⟨_, heq, fun m s s' hs k => run_agrees m hcleaned hs k⟩

/-! ## A swap -/

/-- A loop in which two phi nodes read each other. The second one names the blocks in another order,
so its incoming values are brought into order first. -/
def swapLoop : LLVMFunction ℕ Unit where
  blocks := [
    ⟨[], [], ⟨0, (), []⟩⟩,
    ⟨[⟨1, [(.constant 5, 0), (.register 2, 1)]⟩, ⟨2, [(.register 1, 1), (.constant 7, 0)]⟩], [],
      ⟨3, (), []⟩⟩]
  numLocals := 4
  nodup := by decide
  dest_lt := by decide
  use_lt := by decide

/-- Every terminator branches to the loop. -/
def alwaysLoop : Machine ℕ Unit Unit where
  execute _ _ _ := none
  terminate _ _ _ := some (none, some 1, ())

theorem swapLoop_samePredecessors : swapLoop.SamePredecessors := by
  unfold LLVMFunction.SamePredecessors
  decide

/-- Three times around. -/
theorem runOnFunction_agrees_swapLoop :
    ∃ f', PhiCleanerPass.runOnFunction swapLoop.toCode = some f'
      ∧ Option.Rel (Agrees 4)
        (run alwaysLoop enterSimultaneously swapLoop.toCode 3 ⟨some 0, none, fun _ => 0, ()⟩)
        (run alwaysLoop enter f' 3 ⟨some 0, none, fun _ => 0, ()⟩) := by
  obtain ⟨f', heq, hrun⟩ := runOnFunction_agrees swapLoop swapLoop_samePredecessors
  exact ⟨f', heq, hrun alwaysLoop _ _ ⟨rfl, fun _ _ => rfl, rfl⟩ 3⟩

/-- The values 5 and 7 have been swapped. -/
example : ((PhiCleanerPass.runOnFunction swapLoop.toCode).bind fun f' =>
    run alwaysLoop enter f' 2 ⟨some 0, none, fun _ => 0, ()⟩).map (fun s => (s.locals 1, s.locals 2))
      = some (7, 5) := by
  decide

end PhiExecution

end Xklee
