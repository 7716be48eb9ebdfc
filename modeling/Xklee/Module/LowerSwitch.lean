/-
Lowering of switches: `lib/Module/LowerSwitch.cpp`.

A switch becomes a chain of blocks that compare the value with one case after the other, with a
block of its own for the default edge at the end. Each phi node of a successor has one entry for
each edge of the switch, and the pass moves the entries one by one to the blocks of the chain. A
comparison and the branch on it are one terminator here: nothing else reads the comparison. What
the other instructions and terminators do is left open.
-/
import Xklee.Module.PhiCleaner
import Mathlib.Data.Nat.Basic
import Mathlib.Data.List.Perm.Basic

set_option autoImplicit false

namespace Xklee

namespace LowerSwitchPass

/-! ## Functions -/

inductive TerminatorInst (V Op : Type)
  | switch (condition : Operand V) (defaultDest : ℕ) (cases : List (V × ℕ))
  | br (dest : ℕ)
  /-- `ICMP_EQ` of the value and a constant, and the branch on it. -/
  | caseCmp (value : Operand V) (case : V) (ifTrue ifFalse : ℕ)
  | other (op : Op) (successors : List ℕ)

structure BasicBlock (V Op : Type) where
  phis : List (PHINode V)
  body : List Op
  terminator : TerminatorInst V Op

/-- The names of the blocks in their order, and what they hold; names from `numBlocks` on are
free. -/
structure Function (V Op : Type) where
  layout : List ℕ
  block : ℕ → BasicBlock V Op
  numBlocks : ℕ

section

variable {V Op : Type}

def TerminatorInst.successors : TerminatorInst V Op → List ℕ
  | .switch _ defaultDest cases => defaultDest :: cases.map Prod.snd
  | .br dest => [dest]
  | .caseCmp _ _ ifTrue ifFalse => [ifTrue, ifFalse]
  | .other _ successors => successors

def Function.succs (f : Function V Op) (b : ℕ) : List ℕ := (f.block b).terminator.successors

/-! ## The pass -/

/-- `PN->setIncomingBlock(PN->getBasicBlockIndex(origBlock), newBlock)`; nothing where the assertion
fails. -/
def setIncomingBlock (origBlock newBlock : ℕ) (PN : PHINode V) : Option (PHINode V) := do
  let i ← PN.getBasicBlockIndex origBlock
  let entry ← PN.incoming[i]?
  some { PN with incoming := PN.incoming.set i (entry.1, newBlock) }

/-- The loop over the phi nodes of a successor. -/
def rewritePhis (succ origBlock newBlock : ℕ) (f : Function V Op) : Option (Function V Op) := do
  let phis ← (f.block succ).phis.mapM (setIncomingBlock origBlock newBlock)
  some { f with block := Function.update f.block succ { f.block succ with phis } }

/-- A block without phi nodes, inserted next to another one. -/
def insertBlock (place : ℕ → List ℕ) (terminator : TerminatorInst V Op) (f : Function V Op) :
    Function V Op where
  layout := f.layout.flatMap place
  block := Function.update f.block f.numBlocks ⟨[], [], terminator⟩
  numBlocks := f.numBlocks + 1

def before (b newBlock : ℕ) : ℕ → List ℕ := fun c => if c = b then [newBlock, c] else [c]

def after (b newBlock : ℕ) : ℕ → List ℕ := fun c => if c = b then [c, newBlock] else [c]

/-- The loop of `switchConvert`; it returns the head of the chain, too. -/
def switchConvert (value : Operand V) (origBlock : ℕ) :
    List (V × ℕ) → ℕ → Function V Op → Option (Function V Op × ℕ)
  | [], curHead, f => some (f, curHead)
  | (case, dest) :: cases, curHead, f => do
      let newBlock := f.numBlocks
      let f := insertBlock (after origBlock newBlock) (.caseCmp value case dest curHead) f
      let f ← rewritePhis dest origBlock newBlock f
      switchConvert value origBlock cases newBlock f

/-- "Branch to our shiny new if-then stuff..." -/
def branchTo (curHead origBlock : ℕ) (f : Function V Op) : Function V Op :=
  let lowered := { f.block origBlock with terminator := .br curHead }
  { f with block := Function.update f.block origBlock lowered }

def processSwitchInst (f : Function V Op) (origBlock : ℕ) (value : Operand V) (defaultBlock : ℕ)
    (cases : List (V × ℕ)) : Option (Function V Op) := do
  let newDefault := f.numBlocks
  let f := insertBlock (before defaultBlock newDefault) (.br defaultBlock) f
  let f ← rewritePhis defaultBlock origBlock newDefault f
  let (f, curHead) ← switchConvert value origBlock cases.reverse newDefault f
  some (branchTo curHead origBlock f)

/-- What is done to a block. -/
def lowerBlock (f : Function V Op) (b : ℕ) : Option (Function V Op) :=
  match (f.block b).terminator with
  | .switch value defaultBlock cases => processSwitchInst f b value defaultBlock cases
  | _ => some f

/-- The blocks that the pass inserts end in no switch, so that it does not matter which of them the
loop meets. -/
def runOnFunction (f : Function V Op) : Option (Function V Op) := f.layout.foldlM lowerBlock f

/-- All entries of a predecessor have the same value. -/
def SingleValued (phi : PHINode V) : Prop :=
  ∀ v v' pred, (v, pred) ∈ phi.incoming → (v', pred) ∈ phi.incoming → v = v'

/-- What the verifier guarantees: the names, and in each phi node an entry for each edge from a
predecessor, with one value for all edges from it. -/
structure Function.Verified (f : Function V Op) : Prop where
  lt : ∀ b ∈ f.layout, b < f.numBlocks
  succs : ∀ b ∈ f.layout, ∀ c ∈ f.succs b, c ∈ f.layout
  entries : ∀ b ∈ f.layout, ∀ phi ∈ (f.block b).phis, ∀ pred,
    phi.blocks.count pred = if pred ∈ f.layout then (f.succs pred).count b else 0
  values : ∀ b ∈ f.layout, ∀ phi ∈ (f.block b).phis, SingleValued phi

/-! ## Control flow -/

def TerminatorInst.IsSwitch (terminator : TerminatorInst V Op) : Prop :=
  ∃ condition defaultDest cases, terminator = .switch condition defaultDest cases

/-- A terminator that leads to one block only. -/
inductive TerminatorInst.IsBranch : TerminatorInst V Op → Prop
  | br (dest : ℕ) : IsBranch (.br dest)
  | caseCmp (value : Operand V) (case : V) (ifTrue ifFalse : ℕ) :
      IsBranch (.caseCmp value case ifTrue ifFalse)

theorem TerminatorInst.IsBranch.not_isSwitch {terminator : TerminatorInst V Op}
    (h : terminator.IsBranch) : ¬terminator.IsSwitch := by
  rintro ⟨_, _, _, rfl⟩
  cases h

section

variable [DecidableEq V]

def valueOf (ρ : ℕ → V) : Operand V → V
  | .constant v => v
  | .register r => ρ r

/-- Where a switch on this value leads to. -/
def target (v : V) (cases : List (V × ℕ)) (defaultDest : ℕ) : ℕ :=
  ((cases.find? fun c => c.1 = v).map Prod.snd).getD defaultDest

/-- Control can go from `b` to `dest` with these values in the registers. -/
def Goes (f : Function V Op) (ρ : ℕ → V) (b dest : ℕ) : Prop :=
  match (f.block b).terminator with
  | .switch condition defaultDest cases => dest = target (valueOf ρ condition) cases defaultDest
  | .br d => dest = d
  | .caseCmp value case ifTrue ifFalse =>
      dest = if valueOf ρ value = case then ifTrue else ifFalse
  | .other _ successors => dest ∈ successors

/-- Control comes from one block to another one through blocks that do nothing. -/
inductive Passes (f : Function V Op) (ρ : ℕ → V) : ℕ → ℕ → Prop
  | refl {b : ℕ} : Passes f ρ b b
  | step {b c d : ℕ} : Passes f ρ b c → Goes f ρ c d → (f.block d).phis = [] →
      (f.block d).body = [] → Passes f ρ b d

/-- The values that the phi nodes of a block take for a predecessor. -/
def phiValues (f : Function V Op) (pred b : ℕ) : List (ℕ × Option (Operand V)) :=
  (f.block b).phis.map fun phi => (phi.dest, phi.getIncomingValueForBlock pred)

/-- `f'` goes where `f` goes, with the same values in the phi nodes, and is the same but for
switches, new blocks and the predecessors in phi nodes. What is new can only branch. -/
structure Lowers (f f' : Function V Op) : Prop where
  goes : ∀ ρ, ∀ b ∈ f.layout, ∀ dest, Goes f ρ b dest → ∃ pred, Passes f' ρ b pred ∧
    Goes f' ρ pred dest ∧ phiValues f' pred dest = phiValues f b dest
  layout : f.layout.Sublist f'.layout
  same : ∀ b ∈ f.layout, (f'.block b).body = (f.block b).body ∧
    (f'.block b).phis.map (fun phi => (phi.dest, phi.incoming.map Prod.fst))
      = (f.block b).phis.map fun phi => (phi.dest, phi.incoming.map Prod.fst)
  terminator : ∀ b ∈ f.layout, ¬(f.block b).terminator.IsSwitch →
    (f'.block b).terminator = (f.block b).terminator
  branch : ∀ b ∈ f'.layout, b ∈ f.layout ∧ (f'.block b).terminator = (f.block b).terminator ∨
    (f'.block b).terminator.IsBranch

end

/-! ## Phi nodes -/

theorem getIncomingValueForBlock_eq_some_iff {phi : PHINode V} (h : SingleValued phi) {pred : ℕ}
    {v : Operand V} : phi.getIncomingValueForBlock pred = some v ↔ (v, pred) ∈ phi.incoming := by
  constructor
  · intro hv
    cases hindex : phi.getBasicBlockIndex pred with
    | none => simp [PHINode.getIncomingValueForBlock, hindex] at hv
    | some i =>
        obtain ⟨v', hget, hv'⟩ := PhiCleanerPass.getIncomingValueForBlock_eq hindex
        obtain rfl := Option.some.inj (hv.symm.trans hv')
        exact List.mem_of_getElem? hget
  · intro hmem
    obtain ⟨v', hv'⟩ := PhiCleanerPass.exists_getIncomingValueForBlock
      (List.mem_map_of_mem (f := Prod.snd) hmem)
    cases hindex : phi.getBasicBlockIndex pred with
    | none => simp [PHINode.getIncomingValueForBlock, hindex] at hv'
    | some i =>
        obtain ⟨v'', hget, hv''⟩ := PhiCleanerPass.getIncomingValueForBlock_eq hindex
        rw [hv'', h v v'' pred hmem (List.mem_of_getElem? hget)]

/-- Entries for `orig` have become entries for blocks from `limit` on. -/
structure Moved (orig limit : ℕ) (phi phi' : PHINode V) : Prop where
  same : (phi'.dest, phi'.incoming.map Prod.fst) = (phi.dest, phi.incoming.map Prod.fst)
  back : ∀ v pred, (v, pred) ∈ phi'.incoming →
    (v, pred) ∈ phi.incoming ∨ limit ≤ pred ∧ (v, orig) ∈ phi.incoming
  forth : ∀ v pred, (v, pred) ∈ phi.incoming → pred ≠ orig → (v, pred) ∈ phi'.incoming

section Moved

variable {orig limit : ℕ} {phi phi' phi'' : PHINode V}

theorem Moved.refl (orig limit : ℕ) (phi : PHINode V) : Moved orig limit phi phi :=
  ⟨rfl, fun _ _ h => Or.inl h, fun _ _ h _ => h⟩

theorem Moved.trans (horig : orig < limit) (h : Moved orig limit phi phi')
    (h' : Moved orig limit phi' phi'') : Moved orig limit phi phi'' := by
  refine ⟨h'.same.trans h.same, fun v pred hmem => ?_, fun v pred hmem hne =>
    h'.forth v pred (h.forth v pred hmem hne) hne⟩
  rcases h'.back v pred hmem with hmem | ⟨hlimit, hmem⟩
  · exact h.back v pred hmem
  · rcases h.back v orig hmem with hmem | ⟨hle, -⟩
    · exact Or.inr ⟨hlimit, hmem⟩
    · omega

theorem Moved.singleValued (h : Moved orig limit phi phi') (hlt : ∀ b ∈ phi.blocks, b < limit)
    (hphi : SingleValued phi) : SingleValued phi' := by
  intro v v' pred hv hv'
  have hblock : ∀ {w b}, (w, b) ∈ phi.incoming → b < limit := fun hw =>
    hlt _ (List.mem_map_of_mem (f := Prod.snd) hw)
  rcases h.back v pred hv with hv | ⟨hle, hv⟩ <;> rcases h.back v' pred hv' with hv' | ⟨hle', hv'⟩
  · exact hphi v v' pred hv hv'
  · exact absurd (hblock hv) (Nat.not_lt.mpr hle')
  · exact absurd (hblock hv') (Nat.not_lt.mpr hle)
  · exact hphi v v' orig hv hv'

/-- Another predecessor keeps its value. -/
theorem Moved.value_of_ne (h : Moved orig limit phi phi') (hlt : ∀ b ∈ phi.blocks, b < limit)
    (hphi : SingleValued phi) {pred : ℕ} (hne : pred ≠ orig) (hpred : pred < limit) :
    phi'.getIncomingValueForBlock pred = phi.getIncomingValueForBlock pred := by
  refine Option.ext fun v => ?_
  rw [getIncomingValueForBlock_eq_some_iff hphi,
    getIncomingValueForBlock_eq_some_iff (h.singleValued hlt hphi)]
  refine ⟨fun hmem => ?_, fun hmem => h.forth v pred hmem hne⟩
  rcases h.back v pred hmem with hmem | ⟨hle, -⟩
  · exact hmem
  · omega

/-- A new predecessor has the value of the one it stands for. -/
theorem Moved.value_of_new (h : Moved orig limit phi phi') (hlt : ∀ b ∈ phi.blocks, b < limit)
    (hphi : SingleValued phi) {pred : ℕ} (hpred : limit ≤ pred) (hmem : pred ∈ phi'.blocks) :
    phi'.getIncomingValueForBlock pred = phi.getIncomingValueForBlock orig := by
  obtain ⟨⟨v, b⟩, hv, rfl⟩ := List.mem_map.mp hmem
  have horig : (v, orig) ∈ phi.incoming := by
    rcases h.back v b hv with hold | ⟨-, horig⟩
    · exact absurd (hlt b (List.mem_map_of_mem (f := Prod.snd) hold)) (Nat.not_lt.mpr hpred)
    · exact horig
  rw [(getIncomingValueForBlock_eq_some_iff hphi).mpr horig]
  exact (getIncomingValueForBlock_eq_some_iff (h.singleValued hlt hphi)).mpr hv

/-- One entry is moved. -/
theorem setIncomingBlock_spec {newBlock : ℕ} (hnew : limit ≤ newBlock) (h : orig ∈ phi.blocks) :
    ∃ phi', setIncomingBlock orig newBlock phi = some phi' ∧ Moved orig limit phi phi' ∧
      ∀ pred, phi'.blocks.count pred + (if orig = pred then 1 else 0)
        = phi.blocks.count pred + (if newBlock = pred then 1 else 0) := by
  obtain ⟨i, hi⟩ := Option.isSome_iff_exists.mp (PhiCleanerPass.isSome_getBasicBlockIndex.mpr h)
  obtain ⟨v, hget, -⟩ := PhiCleanerPass.getIncomingValueForBlock_eq hi
  obtain ⟨hlt, hentry⟩ := List.getElem?_eq_some_iff.mp hget
  refine ⟨{ phi with incoming := phi.incoming.set i (v, newBlock) }, ?_, ⟨?_, ?_, ?_⟩, fun pred => ?_⟩
  · simp [setIncomingBlock, hi, hget]
  · have hvalue : (phi.incoming.map Prod.fst)[i]? = some v := by simp [hget]
    rw [Prod.mk.injEq]
    refine ⟨rfl, ?_⟩
    obtain ⟨hi', rfl⟩ := List.getElem?_eq_some_iff.mp hvalue
    rw [List.map_set]
    exact List.set_getElem_self hi'
  · intro w pred hmem
    rcases List.mem_or_eq_of_mem_set hmem with hmem | heq
    · exact Or.inl hmem
    · obtain ⟨rfl, rfl⟩ := Prod.mk.inj heq
      exact Or.inr ⟨hnew, List.mem_of_getElem? hget⟩
  · intro w pred hmem hne
    obtain ⟨j, hj, hjw⟩ := List.getElem_of_mem hmem
    have hij : i ≠ j := by
      rintro rfl
      exact hne (congrArg Prod.snd (hjw.symm.trans hentry))
    exact List.mem_of_getElem? (by rw [List.getElem?_set_ne hij, List.getElem?_eq_getElem hj, hjw])
  · have hblocks : ({ phi with incoming := phi.incoming.set i (v, newBlock) } : PHINode V).blocks
        = phi.blocks.set i newBlock := by simp [PHINode.blocks, List.map_set]
    have hlen : i < phi.blocks.length := by simpa [PHINode.blocks] using hlt
    have horig : phi.blocks[i] = orig := by simp [PHINode.blocks, hentry]
    have hpos : orig = pred → 0 < phi.blocks.count pred := fun heq => heq ▸ List.count_pos_iff.mpr h
    rw [hblocks, List.count_set hlen, horig]
    simp only [beq_iff_eq]
    split_ifs <;> omega

end Moved

/-! ## One edge after the other -/

/-- While the switch at the end of `orig` is lowered: `rest` are the edges whose entries are still
there. -/
structure Mid (f : Function V Op) (orig : ℕ) (g : Function V Op) (rest : List ℕ) : Prop where
  le : f.numBlocks ≤ g.numBlocks
  sublist : f.layout.Sublist g.layout
  mem : ∀ b, b ∈ g.layout ↔ b ∈ f.layout ∨ f.numBlocks ≤ b ∧ b < g.numBlocks
  old : ∀ b ∈ f.layout, (g.block b).terminator = (f.block b).terminator ∧
    (g.block b).body = (f.block b).body ∧
    List.Forall₂ (Moved orig f.numBlocks) (f.block b).phis (g.block b).phis
  new : ∀ b, f.numBlocks ≤ b → b < g.numBlocks → (g.block b).phis = [] ∧
    (∀ c ∈ g.succs b, c ∈ g.layout) ∧ (g.block b).terminator.IsBranch
  entries : ∀ b ∈ f.layout, ∀ phi ∈ (g.block b).phis, ∀ pred, phi.blocks.count pred
    = if pred = orig then rest.count b else if pred ∈ g.layout then (g.succs pred).count b else 0

section Insert

variable {b c newBlock : ℕ} {l : List ℕ}

theorem mem_before (h : b ∈ l) : c ∈ l.flatMap (before b newBlock) ↔ c ∈ l ∨ c = newBlock := by
  simp only [List.mem_flatMap, before]
  constructor
  · rintro ⟨d, hd, hc⟩
    split at hc
    · rcases List.mem_cons.mp hc with rfl | hc
      · exact Or.inr rfl
      · exact Or.inl (List.mem_singleton.mp hc ▸ hd)
    · exact Or.inl (List.mem_singleton.mp hc ▸ hd)
  · rintro (hc | rfl)
    · exact ⟨c, hc, by split <;> simp⟩
    · exact ⟨b, h, by simp⟩

theorem mem_after (h : b ∈ l) : c ∈ l.flatMap (after b newBlock) ↔ c ∈ l ∨ c = newBlock := by
  simp only [List.mem_flatMap, after]
  constructor
  · rintro ⟨d, hd, hc⟩
    split at hc
    · rcases List.mem_cons.mp hc with rfl | hc
      · exact Or.inl hd
      · exact Or.inr (List.mem_singleton.mp hc)
    · exact Or.inl (List.mem_singleton.mp hc ▸ hd)
  · rintro (hc | rfl)
    · exact ⟨c, hc, by split <;> simp⟩
    · exact ⟨b, h, by simp⟩

theorem sublist_flatMap {place : ℕ → List ℕ} (h : ∀ c, c ∈ place c) :
    l.Sublist (l.flatMap place) := by
  induction l with
  | nil => exact List.Sublist.refl _
  | cons c l ih => exact (List.singleton_sublist.mpr (h c)).append ih

end Insert

section Forall₂

variable {α β γ : Type} {R : α → β → Prop} {S : β → γ → Prop} {T : α → γ → Prop} {l : List α}
  {l' : List β} {l'' : List γ}

theorem forall₂_trans (hT : ∀ {a b c}, R a b → S b c → T a c) (h : List.Forall₂ R l l')
    (h' : List.Forall₂ S l' l'') : List.Forall₂ T l l'' := by
  induction h generalizing l'' with
  | nil =>
      cases h'
      exact .nil
  | cons hR _ ih =>
      cases h' with
      | cons hS h' => exact .cons (hT hR hS) (ih h')

theorem exists_of_forall₂ (h : List.Forall₂ R l l') {b : β} (hb : b ∈ l') : ∃ a ∈ l, R a b := by
  induction h with
  | nil => cases hb
  | cons hR _ ih =>
      rcases List.mem_cons.mp hb with rfl | hb
      · exact ⟨_, List.mem_cons_self, hR⟩
      · obtain ⟨a, ha, hab⟩ := ih hb
        exact ⟨a, List.mem_cons_of_mem _ ha, hab⟩

theorem map_eq_of_forall₂ {δ : Type} {u : β → δ} {v : α → δ} (h : List.Forall₂ R l l')
    (heq : ∀ a ∈ l, ∀ b ∈ l', R a b → u b = v a) : l'.map u = l.map v := by
  induction h with
  | nil => rfl
  | cons hR _ ih =>
      rw [List.map_cons, List.map_cons, heq _ List.mem_cons_self _ List.mem_cons_self hR,
        ih fun a ha b hb => heq a (List.mem_cons_of_mem _ ha) b (List.mem_cons_of_mem _ hb)]

end Forall₂

section Mid

variable {f g : Function V Op} {orig : ℕ}

theorem Function.Verified.pred_lt (hf : f.Verified) {b : ℕ} (hb : b ∈ f.layout) {phi : PHINode V}
    (hphi : phi ∈ (f.block b).phis) : ∀ pred ∈ phi.blocks, pred < f.numBlocks := by
  intro pred hpred
  have hcount := hf.entries b hb phi hphi pred
  have hpos := List.count_pos_iff.mpr hpred
  split at hcount
  · exact hf.lt pred ‹_›
  · omega

theorem Mid.start (hf : f.Verified) (horig : orig ∈ f.layout) : Mid f orig f (f.succs orig) where
  le := le_refl _
  sublist := List.Sublist.refl _
  mem b := ⟨Or.inl, fun h => h.elim id fun h => absurd h.2 (Nat.not_lt.mpr h.1)⟩
  old b _ := ⟨rfl, rfl, List.forall₂_same.mpr fun phi _ => Moved.refl orig f.numBlocks phi⟩
  new b hle hlt := absurd hlt (Nat.not_lt.mpr hle)
  entries b hb phi hphi pred := by
    rw [hf.entries b hb phi hphi pred]
    split_ifs with h h' h'
    · rw [h']
    · rfl
    · exact absurd (h' ▸ horig) h
    · rfl

theorem Mid.perm {rest rest' : List ℕ} (h : Mid f orig g rest) (hperm : rest.Perm rest') :
    Mid f orig g rest' :=
  { h with entries := fun b hb phi hphi pred =>
      (h.entries b hb phi hphi pred).trans (by rw [hperm.count_eq]) }

/-- The phi nodes of a successor: each loses one entry for `orig` and gets one for the new block. -/
theorem rewritePhis_spec {limit newBlock dest : ℕ} (hnew : limit ≤ newBlock)
    (h : ∀ phi ∈ (g.block dest).phis, orig ∈ phi.blocks) :
    ∃ phis, rewritePhis dest orig newBlock g
        = some { g with block := Function.update g.block dest { g.block dest with phis } } ∧
      List.Forall₂ (fun phi phi' => Moved orig limit phi phi' ∧ ∀ pred,
        phi'.blocks.count pred + (if orig = pred then 1 else 0)
          = phi.blocks.count pred + (if newBlock = pred then 1 else 0)) (g.block dest).phis phis := by
  obtain ⟨phis, hphis⟩ := Partial.exists_mapM (f := setIncomingBlock orig newBlock)
    fun phi hphi => (setIncomingBlock_spec hnew (h phi hphi)).imp fun _ => And.left
  refine ⟨phis, by rw [rewritePhis, hphis]; rfl, ?_⟩
  refine (Partial.mapM_eq_some_iff.mp hphis).imp fun phi phi' hset => ?_
  have hmem : orig ∈ phi.blocks := by
    refine PhiCleanerPass.isSome_getBasicBlockIndex.mp ?_
    cases hindex : phi.getBasicBlockIndex orig with
    | none => simp [setIncomingBlock, hindex] at hset
    | some i => rfl
  obtain ⟨phi'', hset', hspec⟩ := setIncomingBlock_spec hnew hmem
  obtain rfl := Option.some.inj (hset.symm.trans hset')
  exact hspec

/-- One edge: a new block is put into it. -/
theorem Mid.step (hf : f.Verified) (horig : orig ∈ f.layout) {dest : ℕ} {rest : List ℕ}
    (h : Mid f orig g (dest :: rest)) (hdest : dest ∈ f.layout) {place : ℕ → List ℕ}
    (hplace : ∀ c, c ∈ place c)
    (hmem : ∀ c, c ∈ g.layout.flatMap place ↔ c ∈ g.layout ∨ c = g.numBlocks)
    {t : TerminatorInst V Op} (ht : ∀ c ∈ t.successors, c ∈ g.layout) (hbranch : t.IsBranch)
    (hcount : ∀ b ∈ f.layout, t.successors.count b = [dest].count b) :
    ∃ g', rewritePhis dest orig g.numBlocks (insertBlock place t g) = some g' ∧
      Mid f orig g' rest ∧ g'.numBlocks = g.numBlocks + 1 ∧
      g'.block g.numBlocks = ⟨[], [], t⟩ ∧
      ∀ b, f.numBlocks ≤ b → b < g.numBlocks → g'.block b = g.block b := by
  have hlt : ∀ b ∈ f.layout, b < g.numBlocks := fun b hb => lt_of_lt_of_le (hf.lt b hb) h.le
  have hnum : ∀ b ∈ f.layout, b ≠ g.numBlocks := fun b hb => ne_of_lt (hlt b hb)
  have hnot : g.numBlocks ∉ g.layout := fun hin =>
    ((h.mem _).mp hin).elim (fun hb => hnum _ hb rfl) fun hb => ne_of_lt hb.2 rfl
  have hne := hnum dest hdest
  have hblock₁ : (insertBlock place t g).block dest = g.block dest := Function.update_of_ne hne _ _
  have hentry : ∀ phi ∈ ((insertBlock place t g).block dest).phis, orig ∈ phi.blocks := by
    intro phi hphi
    have hentries := h.entries dest hdest phi (hblock₁ ▸ hphi) orig
    rw [if_pos rfl, List.count_cons_self] at hentries
    exact List.count_pos_iff.mp (by omega)
  obtain ⟨phis, hphis, hmoved⟩ := rewritePhis_spec h.le hentry
  rw [hblock₁] at hphis hmoved
  generalize hg' : ({ insertBlock place t g with block := _ } : Function V Op) = g' at hphis
  have hother : ∀ b, b ≠ dest → b ≠ g.numBlocks → g'.block b = g.block b := fun b hb hb' =>
    hg' ▸ (Function.update_of_ne hb _ _).trans (Function.update_of_ne hb' _ _)
  have hat : g'.block dest = { g.block dest with phis } := hg' ▸ Function.update_self _ _ _
  have hblock : g'.block g.numBlocks = ⟨[], [], t⟩ :=
    hg' ▸ (Function.update_of_ne hne.symm _ _).trans (Function.update_self _ _ _)
  have hterminator : ∀ b, b ≠ g.numBlocks → (g'.block b).terminator = (g.block b).terminator := by
    intro b hb
    rcases eq_or_ne b dest with rfl | hb'
    · rw [hat]
    · rw [hother b hb' hb]
  have hlayout : ∀ c, c ∈ g'.layout ↔ c ∈ g.layout ∨ c = g.numBlocks := hg' ▸ hmem
  have hnum' : g'.numBlocks = g.numBlocks + 1 := hg' ▸ rfl
  have hkeep : ∀ b, f.numBlocks ≤ b → b < g.numBlocks → g'.block b = g.block b := fun b hle hb =>
    hother b (fun heq => absurd (hf.lt dest hdest) (Nat.not_lt.mpr (heq ▸ hle))) (ne_of_lt hb)
  refine ⟨g', hphis, ⟨?_, ?_, fun b => ?_, fun b hb => ?_, fun b hle hb => ?_,
    fun b hb phi hphi pred => ?_⟩, hnum', hblock, hkeep⟩
  · rw [hnum']
    exact Nat.le_succ_of_le h.le
  · rw [← hg']
    exact h.sublist.trans (sublist_flatMap hplace)
  · rw [hlayout, h.mem, hnum', or_assoc]
    have := h.le
    refine or_congr_right ⟨?_, fun hb => ?_⟩
    · rintro (hb | rfl)
      · exact ⟨hb.1, by omega⟩
      · exact ⟨h.le, by omega⟩
    · exact (Nat.lt_succ_iff_lt_or_eq.mp hb.2).imp (fun hb' => ⟨hb.1, hb'⟩) id
  · obtain ⟨hterm, hbody, hold⟩ := h.old b hb
    refine ⟨(hterminator b (hnum b hb)).trans hterm, ?_⟩
    rcases eq_or_ne b dest with rfl | hb'
    · rw [hat]
      exact ⟨hbody, forall₂_trans (fun hphi hphi' => hphi.trans (hf.lt orig horig) hphi'.1) hold
        hmoved⟩
    · rw [hother b hb' (hnum b hb)]
      exact ⟨hbody, hold⟩
  · have hin : ∀ c ∈ g.layout, c ∈ g'.layout := fun c hc => (hlayout c).mpr (Or.inl hc)
    rcases Nat.lt_succ_iff_lt_or_eq.mp (hnum' ▸ hb) with hb | rfl
    · obtain ⟨hphis, hsuccs, hbranch'⟩ := h.new b hle hb
      rw [Function.succs, hkeep b hle hb]
      exact ⟨hphis, fun c hc => hin c (hsuccs c hc), hbranch'⟩
    · rw [Function.succs, hblock]
      exact ⟨rfl, fun c hc => hin c (ht c hc), hbranch⟩
  · have horigNum : orig ≠ g.numBlocks := ne_of_lt (hlt orig horig)
    have hsuccs : ∀ pred, pred ≠ g.numBlocks → g'.succs pred = g.succs pred := fun pred hpred =>
      congrArg TerminatorInst.successors (hterminator pred hpred)
    -- What the phi nodes had for this predecessor.
    have hentries : ∃ phi₀ ∈ (g.block b).phis, phi.blocks.count pred
          + (if b = dest ∧ orig = pred then 1 else 0)
        = phi₀.blocks.count pred + (if b = dest ∧ g.numBlocks = pred then 1 else 0) := by
      rcases eq_or_ne b dest with rfl | hb'
      · rw [hat] at hphi
        obtain ⟨phi₀, hphi₀, -, hcount₀⟩ := exists_of_forall₂ hmoved hphi
        exact ⟨phi₀, hphi₀, by simpa using hcount₀ pred⟩
      · rw [hother b hb' (hnum b hb)] at hphi
        exact ⟨phi, hphi, by simp [hb']⟩
    obtain ⟨phi₀, hphi₀, hcount₀⟩ := hentries
    rw [h.entries b hb phi₀ hphi₀ pred, List.count_cons] at hcount₀
    have hcount' := hcount b hb
    rw [List.count_singleton] at hcount'
    rcases eq_or_ne pred g.numBlocks with rfl | hpred
    · rw [if_neg horigNum.symm, if_pos ((hlayout _).mpr (Or.inr rfl)), Function.succs, hblock,
        hcount']
      rw [if_neg horigNum.symm, if_neg hnot, if_neg fun heq => horigNum heq.2] at hcount₀
      simpa [eq_comm (a := dest)] using hcount₀
    · rw [hsuccs pred hpred, if_congr ((hlayout pred).trans (or_iff_left hpred)) rfl rfl]
      rw [if_neg fun heq : b = dest ∧ g.numBlocks = pred => hpred heq.2.symm] at hcount₀
      rcases eq_or_ne pred orig with rfl | hpred'
      · rw [if_pos rfl] at hcount₀ ⊢
        simpa [eq_comm (a := dest)] using hcount₀
      · rw [if_neg hpred'] at hcount₀ ⊢
        rwa [if_neg fun heq => hpred' heq.2.symm] at hcount₀

end Mid

/-! ## The chain -/

/-- Blocks from `lo` on that compare the value with one case after the other. -/
inductive Chain (g : Function V Op) (lo : ℕ) (value : Operand V) (defaultBlock : ℕ) :
    ℕ → List (V × ℕ) → Prop
  | last {head : ℕ} : lo ≤ head → head < g.numBlocks →
      g.block head = ⟨[], [], .br defaultBlock⟩ → Chain g lo value defaultBlock head []
  | case {head next dest : ℕ} {case : V} {cases : List (V × ℕ)} : lo ≤ head → head < g.numBlocks →
      g.block head = ⟨[], [], .caseCmp value case dest next⟩ →
      Chain g lo value defaultBlock next cases →
      Chain g lo value defaultBlock head ((case, dest) :: cases)

section Chain

variable {f g : Function V Op} {orig lo d head : ℕ} {value : Operand V} {cases : List (V × ℕ)}

theorem Chain.mono {g' : Function V Op} (hnum : g.numBlocks ≤ g'.numBlocks)
    (hblock : ∀ b, lo ≤ b → b < g.numBlocks → g'.block b = g.block b)
    (h : Chain g lo value d head cases) : Chain g' lo value d head cases := by
  induction h with
  | last hlo hlt heq =>
      exact .last hlo (Nat.lt_of_lt_of_le hlt hnum) ((hblock _ hlo hlt).trans heq)
  | case hlo hlt heq _ ih =>
      exact .case hlo (Nat.lt_of_lt_of_le hlt hnum) ((hblock _ hlo hlt).trans heq) ih

theorem Chain.bounds (h : Chain g lo value d head cases) :
    lo ≤ head ∧ head < g.numBlocks ∧ (g.block head).phis = [] ∧ (g.block head).body = [] := by
  cases h with
  | last hlo hlt heq => exact ⟨hlo, hlt, by rw [heq], by rw [heq]⟩
  | case hlo hlt heq _ => exact ⟨hlo, hlt, by rw [heq], by rw [heq]⟩

theorem switchConvert_spec (hf : f.Verified) (horig : orig ∈ f.layout) :
    ∀ (cases done : List (V × ℕ)) (head : ℕ) (g : Function V Op),
      Mid f orig g (cases.map Prod.snd) → (∀ c ∈ cases, c.2 ∈ f.layout) →
      Chain g f.numBlocks value d head done →
      ∃ g' head', switchConvert value orig cases head g = some (g', head') ∧ Mid f orig g' [] ∧
        Chain g' f.numBlocks value d head' (cases.reverse ++ done)
  | [], done, head, g, hmid, _, hchain => ⟨g, head, rfl, hmid, hchain⟩
  | (case, dest) :: cases, done, head, g, hmid, hcases, hchain => by
      obtain ⟨hlo, hlt, -, -⟩ := hchain.bounds
      have hdest := hcases _ List.mem_cons_self
      have hin : ∀ b ∈ f.layout, b ∈ g.layout := fun b hb => (hmid.mem b).mpr (Or.inl hb)
      have hhead : head ∈ g.layout := (hmid.mem head).mpr (Or.inr ⟨hlo, hlt⟩)
      let t : TerminatorInst V Op := .caseCmp value case dest head
      have ht : ∀ c ∈ t.successors, c ∈ g.layout := by
        intro c hc
        rcases List.mem_cons.mp hc with rfl | hc
        · exact hin _ hdest
        · exact List.mem_singleton.mp hc ▸ hhead
      have hcount : ∀ b ∈ f.layout, t.successors.count b = [dest].count b := by
        intro b hb
        have hne : head ≠ b := fun heq => Nat.not_lt.mpr hlo (heq ▸ hf.lt b hb)
        simp [t, TerminatorInst.successors, List.count_cons, hne]
      have hplace : ∀ c, c ∈ after orig g.numBlocks c := fun c => by
        unfold after
        split <;> simp
      obtain ⟨g₁, hrewrite, hmid₁, hnum, hblock, hkeep⟩ := hmid.step hf horig hdest hplace
        (fun c => mem_after (hin orig horig)) ht (.caseCmp value case dest head) hcount
      have hchain₁ : Chain g₁ f.numBlocks value d g.numBlocks ((case, dest) :: done) :=
        .case hmid.le (by omega) hblock (hchain.mono (by omega) hkeep)
      obtain ⟨g', head', hconvert, hmid', hchain'⟩ := switchConvert_spec hf horig cases _ _ g₁ hmid₁
        (fun c hc => hcases c (List.mem_cons_of_mem _ hc)) hchain₁
      refine ⟨g', head', ?_, hmid', ?_⟩
      · rw [switchConvert, Partial.bind_of_eq hrewrite]
        exact hconvert
      · rwa [List.reverse_cons, List.append_assoc]

variable [DecidableEq V]

theorem Passes.trans {ρ : ℕ → V} {b c e : ℕ} (h : Passes g ρ b c) (h' : Passes g ρ c e) :
    Passes g ρ b e := by
  induction h' with
  | refl => exact h
  | step _ hgoes hphis hbody ih => exact .step ih hgoes hphis hbody

/-- The chain leads where the switch leads. -/
theorem Chain.goes (ρ : ℕ → V) (h : Chain g lo value d head cases) :
    ∃ pred, lo ≤ pred ∧ pred < g.numBlocks ∧ Passes g ρ head pred ∧
      Goes g ρ pred (target (valueOf ρ value) cases d) := by
  induction h with
  | @last head hlo hlt heq =>
      refine ⟨head, hlo, hlt, .refl, ?_⟩
      rw [Goes, heq]
      rfl
  | @case head next dest case cases hlo hlt heq hnext ih =>
      by_cases hcase : valueOf ρ value = case
      · refine ⟨head, hlo, hlt, .refl, ?_⟩
        simp [Goes, heq, target, hcase]
      · obtain ⟨pred, hlo', hlt', hpasses, hgoes⟩ := ih
        obtain ⟨-, -, hphis, hbody⟩ := hnext.bounds
        have hstep : Goes g ρ head next := by simp [Goes, heq, hcase]
        refine ⟨pred, hlo', hlt', (Passes.refl.step hstep hphis hbody).trans hpasses, ?_⟩
        have hne : case ≠ valueOf ρ value := fun heq => hcase heq.symm
        simpa [target, hne] using hgoes

theorem Goes.mem_succs {ρ : ℕ → V} {b dest : ℕ} (h : Goes g ρ b dest) : dest ∈ g.succs b := by
  rw [Goes] at h
  rw [Function.succs]
  cases ht : (g.block b).terminator with
  | «switch» condition defaultDest cases =>
      rw [ht] at h
      subst h
      rw [TerminatorInst.successors, target]
      cases hfind : cases.find? fun c => c.1 = valueOf ρ condition with
      | none => exact List.mem_cons_self
      | some c => exact List.mem_cons_of_mem _ (List.mem_map_of_mem (List.mem_of_find?_eq_some hfind))
  | br d =>
      rw [ht] at h
      exact h ▸ List.mem_cons_self
  | caseCmp value case ifTrue ifFalse =>
      rw [ht] at h
      subst h
      simp only [TerminatorInst.successors]
      split <;> simp
  | other op successors =>
      rw [ht] at h
      exact h

end Chain

/-! ## The switch -/

section

variable {f g : Function V Op}

variable {orig head b c defaultBlock : ℕ} {ρ : ℕ → V} {f' : Function V Op} {value : Operand V}
  {cases : List (V × ℕ)}

theorem branchTo_of_ne (hb : b ≠ orig) :
    (branchTo head orig g).block b = g.block b := Function.update_of_ne hb _ _

theorem branchTo_self (g : Function V Op) (orig head : ℕ) :
    (branchTo head orig g).block orig = { g.block orig with terminator := .br head } :=
  Function.update_self _ _ _

theorem Mid.phis (h : Mid f orig g []) (hb : b ∈ f.layout) :
    ((branchTo head orig g).block b).body = (f.block b).body ∧ List.Forall₂
      (Moved orig f.numBlocks) (f.block b).phis ((branchTo head orig g).block b).phis := by
  rcases eq_or_ne b orig with rfl | hne
  · rw [branchTo_self]
    exact (h.old b hb).2
  · rw [branchTo_of_ne hne]
    exact (h.old b hb).2

/-- The entries have all been moved, so that the verifier accepts the function again. -/
theorem Mid.verified (hf : f.Verified) (horig : orig ∈ f.layout) (h : Mid f orig g [])
    (hlo : f.numBlocks ≤ head) (hhead : head < g.numBlocks) :
    (branchTo head orig g).Verified := by
  have hnew : ∀ b, f.numBlocks ≤ b → b ≠ orig := fun b hle heq =>
    Nat.not_lt.mpr hle (heq ▸ hf.lt orig horig)
  have hsuccs : ∀ b, b ≠ orig → (branchTo head orig g).succs b = g.succs b := fun b hb =>
    congrArg (fun block : BasicBlock V Op => block.terminator.successors) (branchTo_of_ne hb)
  have hsuccsOrig : (branchTo head orig g).succs orig = [head] :=
    congrArg (fun block : BasicBlock V Op => block.terminator.successors) (branchTo_self g orig head)
  have hphisNew : ∀ b, f.numBlocks ≤ b → b < g.numBlocks →
      ((branchTo head orig g).block b).phis = [] := fun b hle hb => by
    rw [branchTo_of_ne (hnew b hle)]
    exact (h.new b hle hb).1
  refine ⟨fun b hb => ?_, fun b hb c hc => ?_, fun b hb phi hphi pred => ?_, fun b hb phi hphi => ?_⟩
  · rcases (h.mem b).mp hb with hb | hb
    · exact Nat.lt_of_lt_of_le (hf.lt b hb) h.le
    · exact hb.2
  · rcases eq_or_ne b orig with rfl | hne
    · rw [hsuccsOrig, List.mem_singleton] at hc
      exact (h.mem c).mpr (Or.inr ⟨hc ▸ hlo, hc ▸ hhead⟩)
    · rw [hsuccs b hne] at hc
      rcases (h.mem b).mp hb with hb | hb
      · rw [Function.succs, (h.old b hb).1] at hc
        exact (h.mem c).mpr (Or.inl (hf.succs b hb c hc))
      · exact (h.new b hb.1 hb.2).2.1 c hc
  · rcases (h.mem b).mp hb with hold | hb
    · have hphi' : phi ∈ (g.block b).phis := by
        rcases eq_or_ne b orig with rfl | hne
        · rwa [branchTo_self] at hphi
        · rwa [branchTo_of_ne hne] at hphi
      rw [h.entries b hold phi hphi' pred]
      rcases eq_or_ne pred orig with rfl | hne
      · have hhead' : head ≠ b := fun heq => Nat.not_lt.mpr hlo (heq ▸ hf.lt b hold)
        rw [if_pos rfl, hsuccsOrig, List.count_nil, List.count_singleton]
        simp [hhead']
      · rw [if_neg hne, hsuccs pred hne]
        rfl
    · rw [hphisNew b hb.1 hb.2] at hphi
      cases hphi
  · rcases (h.mem b).mp hb with hb | hb
    · obtain ⟨phi₀, hphi₀, hmoved⟩ := exists_of_forall₂ (h.phis hb).2 hphi
      exact hmoved.singleValued (hf.pred_lt hb hphi₀) (hf.values b hb phi₀ hphi₀)
    · rw [hphisNew b hb.1 hb.2] at hphi
      cases hphi

variable [DecidableEq V]

theorem goes_congr {dest : ℕ} (h : (f'.block b).terminator = (f.block b).terminator) :
    Goes f' ρ b dest ↔ Goes f ρ b dest := by
  rw [Goes, Goes, h]

theorem Mid.lowers (hf : f.Verified) (horig : orig ∈ f.layout) (h : Mid f orig g [])
    (hterm : (f.block orig).terminator = .switch value defaultBlock cases)
    (hchain : Chain g f.numBlocks value defaultBlock head cases) :
    Lowers f (branchTo head orig g) := by
  have hnew : ∀ b, f.numBlocks ≤ b → b ≠ orig := fun b hle heq =>
    Nat.not_lt.mpr hle (heq ▸ hf.lt orig horig)
  obtain ⟨hlo, hhead, hphisHead, hbodyHead⟩ := hchain.bounds
  have hverified := h.verified hf horig hlo hhead
  have hterminator : ∀ b ∈ f.layout, b ≠ orig →
      ((branchTo head orig g).block b).terminator = (f.block b).terminator := fun b hb hne => by
    rw [branchTo_of_ne hne, (h.old b hb).1]
  refine ⟨fun ρ b hb dest hgoes => ?_, h.sublist, fun b hb => ⟨(h.phis hb).1,
    map_eq_of_forall₂ (h.phis hb).2 fun _ _ _ _ hmoved => hmoved.same⟩, fun b hb hno =>
    hterminator b hb fun heq => hno (heq ▸ ⟨value, defaultBlock, cases, hterm⟩), fun b hb => ?_⟩
  have hdest := hf.succs b hb dest hgoes.mem_succs
  rcases eq_or_ne b orig with rfl | hne
  · have hchain' : Chain (branchTo head b g) f.numBlocks value defaultBlock head cases :=
      hchain.mono (show g.numBlocks ≤ _ from Nat.le_refl _) fun c hc _ => branchTo_of_ne (hnew c hc)
    obtain ⟨pred, hle, hlt, hpasses, hpred⟩ := hchain'.goes ρ
    have hgoes' : dest = target (valueOf ρ value) cases defaultBlock := by
      rwa [Goes, hterm] at hgoes
    rw [← hgoes'] at hpred
    have hstep : Goes (branchTo head b g) ρ b head := by
      rw [Goes, branchTo_self]
    have hblock : (branchTo head b g).block head = g.block head := branchTo_of_ne (hnew head hlo)
    refine ⟨pred, (Passes.refl.step hstep (hblock ▸ hphisHead) (hblock ▸ hbodyHead)).trans hpasses,
      hpred, map_eq_of_forall₂ (h.phis hdest).2 fun phi hphi phi' hphi' hmoved => ?_⟩
    have hmem : pred ∈ phi'.blocks := by
      refine List.count_pos_iff.mp ?_
      rw [hverified.entries dest ((h.mem dest).mpr (Or.inl hdest)) phi' hphi' pred,
        if_pos (show pred ∈ (branchTo head b g).layout from (h.mem pred).mpr (Or.inr ⟨hle, hlt⟩))]
      exact List.count_pos_iff.mpr hpred.mem_succs
    rw [hmoved.value_of_new (hf.pred_lt hdest hphi) (hf.values dest hdest phi hphi) hle hmem,
      (Prod.mk.inj hmoved.same).1]
  · refine ⟨b, .refl, (goes_congr (hterminator b hb hne)).mpr hgoes,
      map_eq_of_forall₂ (h.phis hdest).2 fun phi hphi phi' _ hmoved => ?_⟩
    rw [hmoved.value_of_ne (hf.pred_lt hdest hphi) (hf.values dest hdest phi hphi) hne (hf.lt b hb),
      (Prod.mk.inj hmoved.same).1]
  · rcases eq_or_ne b orig with rfl | hne
    · rw [branchTo_self]
      exact Or.inr (.br head)
    · rcases (h.mem b).mp hb with hb | hb
      · exact Or.inl ⟨hb, hterminator b hb hne⟩
      · rw [branchTo_of_ne hne]
        exact Or.inr (h.new b hb.1 hb.2).2.2

/-- The switch of `orig` is lowered, and no other one appears. -/
theorem processSwitchInst_spec (hf : f.Verified) (horig : orig ∈ f.layout)
    (hterm : (f.block orig).terminator = .switch value defaultBlock cases) :
    ∃ f', processSwitchInst f orig value defaultBlock cases = some f' ∧ f'.Verified ∧
      Lowers f f' ∧ ∀ b ∈ f'.layout, (f'.block b).terminator.IsSwitch →
        b ∈ f.layout ∧ (f.block b).terminator.IsSwitch ∧ b ≠ orig := by
  have hsuccs : f.succs orig = defaultBlock :: cases.map Prod.snd := by
    rw [Function.succs, hterm, TerminatorInst.successors]
  have hdests := hf.succs orig horig
  rw [hsuccs] at hdests
  have hdefault := hdests defaultBlock List.mem_cons_self
  have hcases : ∀ c ∈ cases.reverse, c.2 ∈ f.layout := fun c hc =>
    hdests c.2 (List.mem_cons_of_mem _ (List.mem_map_of_mem (List.mem_reverse.mp hc)))
  -- The new default block.
  have hplace : ∀ c, c ∈ before defaultBlock f.numBlocks c := fun c => by
    unfold before
    split <;> simp
  obtain ⟨g₁, hrewrite, hmid₁, hnum, hblock, -⟩ := (hsuccs ▸ Mid.start hf horig).step hf horig
    hdefault hplace (fun c => mem_before hdefault)
    (t := .br defaultBlock) (fun c hc => List.mem_singleton.mp hc ▸ hdefault) (.br defaultBlock)
    fun b _ => rfl
  have hchain₁ : Chain g₁ f.numBlocks value defaultBlock f.numBlocks [] :=
    .last (Nat.le_refl _) (by omega) hblock
  -- The cases.
  obtain ⟨g, head, hconvert, hmid, hchain⟩ := switchConvert_spec hf horig cases.reverse [] _ g₁
    (hmid₁.perm ((List.reverse_perm cases).symm.map _)) hcases hchain₁
  rw [List.reverse_reverse, List.append_nil] at hchain
  obtain ⟨hlo, hhead, -, -⟩ := hchain.bounds
  refine ⟨branchTo head orig g, ?_, hmid.verified hf horig hlo hhead,
    hmid.lowers hf horig hterm hchain, fun b hb hswitch => ?_⟩
  · rw [processSwitchInst, Partial.bind_of_eq hrewrite, Partial.bind_of_eq hconvert]
  · have hne : b ≠ orig := by
      rintro rfl
      rw [branchTo_self] at hswitch
      obtain ⟨_, _, _, h⟩ := hswitch
      cases h
    rw [branchTo_of_ne hne] at hswitch
    rcases (hmid.mem b).mp hb with hb | hb
    · exact ⟨hb, (hmid.old b hb).1 ▸ hswitch, hne⟩
    · exact absurd hswitch (hmid.new b hb.1 hb.2).2.2.not_isSwitch

/-! ## The function -/

theorem Lowers.refl (f : Function V Op) : Lowers f f :=
  ⟨fun _ b _ _ hgoes => ⟨b, .refl, hgoes, rfl⟩, List.Sublist.refl _, fun _ _ => ⟨rfl, rfl⟩,
    fun _ _ _ => rfl, fun _ hb => Or.inl ⟨hb, rfl⟩⟩

/-- What the first pass inserts is kept by the second one. -/
theorem Lowers.passes (hf : f.Verified) (h : Lowers f f') (hb : b ∈ f.layout)
    (hpasses : Passes f ρ b c) : c ∈ f.layout ∧ Passes f' ρ b c := by
  induction hpasses with
  | refl => exact ⟨hb, .refl⟩
  | @step c d _ hgoes hphis hbody ih =>
      obtain ⟨hc, hpasses⟩ := ih
      have hd := hf.succs c hc d hgoes.mem_succs
      obtain ⟨pred, hpasses', hgoes', -⟩ := h.goes ρ c hc d hgoes
      obtain ⟨hbody', hphis'⟩ := h.same d hd
      rw [hphis, List.map_nil, List.map_eq_nil_iff] at hphis'
      exact ⟨hd, (hpasses.trans hpasses').step hgoes' hphis' (hbody'.trans hbody)⟩

theorem Lowers.trans {f'' : Function V Op} (hf' : f'.Verified) (h : Lowers f f')
    (h' : Lowers f' f'') : Lowers f f'' where
  goes ρ b hb dest hgoes := by
    obtain ⟨pred, hpasses, hpred, hvalues⟩ := h.goes ρ b hb dest hgoes
    obtain ⟨hin, hpasses'⟩ := h'.passes hf' (h.layout.subset hb) hpasses
    obtain ⟨pred', hpasses'', hpred', hvalues'⟩ := h'.goes ρ pred hin dest hpred
    exact ⟨pred', hpasses'.trans hpasses'', hpred', hvalues'.trans hvalues⟩
  layout := h.layout.trans h'.layout
  same b hb := by
    obtain ⟨hbody, hphis⟩ := h.same b hb
    obtain ⟨hbody', hphis'⟩ := h'.same b (h.layout.subset hb)
    exact ⟨hbody'.trans hbody, hphis'.trans hphis⟩
  terminator b hb hno := by
    have hterm := h.terminator b hb hno
    exact (h'.terminator b (h.layout.subset hb) (hterm ▸ hno)).trans hterm
  branch b hb := by
    rcases h'.branch b hb with ⟨hb', hterm'⟩ | hbranch
    · rw [hterm']
      exact (h.branch b hb').imp_left fun hb => ⟨hb.1, hb.2⟩
    · exact Or.inr hbranch

theorem lowerBlock_spec (hf : f.Verified) (hb : b ∈ f.layout) :
    ∃ f', lowerBlock f b = some f' ∧ f'.Verified ∧ Lowers f f' ∧
      ∀ c ∈ f'.layout, (f'.block c).terminator.IsSwitch →
        c ∈ f.layout ∧ (f.block c).terminator.IsSwitch ∧ c ≠ b := by
  rw [lowerBlock]
  split
  · exact processSwitchInst_spec hf hb ‹_›
  · rename_i hno
    refine ⟨f, rfl, hf, .refl f, fun c hc hswitch => ⟨hc, hswitch, ?_⟩⟩
    rintro rfl
    obtain ⟨value, defaultBlock, cases, hterm⟩ := hswitch
    exact hno value defaultBlock cases hterm

theorem foldlM_lowerBlock_spec : ∀ (bs : List ℕ) (f : Function V Op), f.Verified →
    (∀ b ∈ bs, b ∈ f.layout) → ∃ f', bs.foldlM lowerBlock f = some f' ∧ f'.Verified ∧
      Lowers f f' ∧ ∀ c ∈ f'.layout, (f'.block c).terminator.IsSwitch →
        c ∈ f.layout ∧ (f.block c).terminator.IsSwitch ∧ c ∉ bs
  | [], f, hf, _ => ⟨f, rfl, hf, .refl f, fun _ hc hswitch => ⟨hc, hswitch, List.not_mem_nil⟩⟩
  | b :: bs, f, hf, hbs => by
      obtain ⟨f₁, hblock, hf₁, hlowers, hswitch⟩ := lowerBlock_spec hf (hbs b List.mem_cons_self)
      obtain ⟨f', hfold, hf', hlowers', hswitch'⟩ := foldlM_lowerBlock_spec bs f₁ hf₁ fun c hc =>
        hlowers.layout.subset (hbs c (List.mem_cons_of_mem _ hc))
      refine ⟨f', ?_, hf', hlowers.trans hf₁ hlowers', fun c hc h => ?_⟩
      · rw [List.foldlM_cons, Partial.bind_of_eq hblock]
        exact hfold
      · obtain ⟨hc₁, h₁, hnot⟩ := hswitch' c hc h
        obtain ⟨hc₀, h₀, hne⟩ := hswitch c hc₁ h₁
        exact ⟨hc₀, h₀, fun hmem => (List.mem_cons.mp hmem).elim hne hnot⟩

/-- No switch remains, every value leads where it led, and the phi nodes have an entry for each
edge and see the same values. -/
theorem runOnFunction_lowers (hf : f.Verified) :
    ∃ f', runOnFunction f = some f' ∧ f'.Verified ∧ Lowers f f' ∧
      ∀ b ∈ f'.layout, ¬(f'.block b).terminator.IsSwitch := by
  obtain ⟨f', hrun, hf', hlowers, hswitch⟩ := foldlM_lowerBlock_spec f.layout f hf fun _ hb => hb
  exact ⟨f', hrun, hf', hlowers, fun b hb h =>
    (hswitch b hb h).2.2 (hswitch b hb h).1⟩

end

/-- Block 0 switches on register 0: with 5 and by default it goes to block 1, with 6 to block 2. -/
def switching : Function ℕ Unit where
  layout := [0, 1, 2]
  block
    | 0 => ⟨[], [], .switch (.register 0) 1 [(5, 1), (6, 2)]⟩
    | 1 => ⟨[⟨1, [(.constant 3, 0), (.constant 3, 0), (.constant 4, 2)]⟩], [], .other () []⟩
    | _ => ⟨[], [], .br 1⟩
  numBlocks := 3

theorem runOnFunction_lowers_switching : ∃ f', runOnFunction switching = some f' ∧ f'.Verified ∧
    Lowers switching f' ∧ ∀ b ∈ f'.layout, ¬(f'.block b).terminator.IsSwitch := by
  have hphis : ∀ b ∈ switching.layout, ∀ phi ∈ (switching.block b).phis, b = 1 ∧
      phi = ⟨1, [(.constant 3, 0), (.constant 3, 0), (.constant 4, 2)]⟩ := by
    intro b hb phi hphi
    have hb' : b = 0 ∨ b = 1 ∨ b = 2 := by simpa [switching] using hb
    rcases hb' with rfl | rfl | rfl
    · cases hphi
    · exact ⟨rfl, List.mem_singleton.mp hphi⟩
    · cases hphi
  refine runOnFunction_lowers ⟨by decide, by decide, fun b hb phi hphi pred => ?_,
    fun b hb phi hphi v v' pred hv hv' => ?_⟩
  · obtain ⟨rfl, rfl⟩ := hphis b hb phi hphi
    match pred with
    | 0 | 1 | 2 => decide
    | n + 3 => simp [PHINode.blocks, switching]
  · obtain ⟨rfl, rfl⟩ := hphis b hb phi hphi
    simp only [List.mem_cons, Prod.mk.injEq, List.not_mem_nil, or_false] at hv hv'
    grind

end

end LowerSwitchPass

end Xklee
