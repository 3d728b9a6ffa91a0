import BitcoinGpuMiner.Ledger.Linear

/-! # Runs that only extend the active tip

Such runs and valid chains are the same thing: every state of a run stands for a valid chain, and
every valid chain is the active chain of a state of some run.
-/

namespace BitcoinGpuMiner

open Foundation

set_option autoImplicit false

namespace Node

def Accepts (verifyScript : VerifyScript) (node : Node) (block : Block) : Prop :=
  node.entry block.getHash = none ∧ (acceptBlock verifyScript node block).node.entry block.getHash ≠ none

/-- If the block is accepted, it goes on top of the active tip and obeys `rule`. -/
def TipOnly (verifyScript : VerifyScript) (rule : BlockRule) (node : Node) (block : Block) : Prop :=
  Accepts verifyScript node block → ∃ active : BlockIndex, node.tips.getActiveTip = some active ∧
    block.hashPrevBlock = active.hash ∧ rule node.ledger (active.height + 1) block

def TipRun (verifyScript : VerifyScript) (rule : BlockRule) (node : Node) : Prop :=
  Run verifyScript (TipOnly verifyScript rule) node

section Soundness

variable {verifyScript : VerifyScript} {rule : BlockRule} {node : Node} {block : Block} {prev active : BlockIndex}

theorem TipOnly.onTop (hTip : node.TipOnly verifyScript rule block) (hCandidate : node.Candidate block prev active)
    (hStored : (acceptBlock verifyScript node block).node.entry block.getHash ≠ none) :
    block.hashPrevBlock = active.hash ∧ rule node.ledger (active.height + 1) block := by
  obtain ⟨other, hOther, hTop, hRule⟩ := hTip ⟨hCandidate.new, hStored⟩
  cases hCandidate.active.symm.trans hOther
  exact ⟨hTop, hRule⟩

theorem TipOnly.tipStep (hTip : node.TipOnly verifyScript rule block) (hTree : node.Tree) :
    TipStep verifyScript rule node block (acceptBlock verifyScript node block).node := by
  have hCase := hTree.acceptBlock_cases verifyScript block
  have hOnTop : ∀ prev active, node.Candidate block prev active →
      (acceptBlock verifyScript node block).node.entry block.getHash ≠ none →
      block.hashPrevBlock = active.hash ∧ rule node.ledger (active.height + 1) block :=
    fun _ _ hCandidate hStored => hTip.onTop hCandidate hStored
  generalize acceptBlock verifyScript node block = outcome at hCase hOnTop
  cases hCase with
  | known | notExtended | notBranched | crashed | notOvertaken => exact .same rfl rfl rfl rfl
  | orphan =>
    obtain ⟨orphanBlocks, hNode⟩ := acceptOrphan_node node block
    rw [hNode]
    exact .same rfl rfl rfl rfl
  | extended memPool hCandidate hTop hOk hValid hNull =>
    obtain ⟨-, hRule⟩ := hOnTop _ _ hCandidate (hTree.entry_withBlock_self hCandidate true)
    rw [← hTree.prev_core_eq_active hCandidate hTop] at hRule
    exact .extended memPool hCandidate hTop hOk hValid hNull hRule
  | branched hCandidate hBeside =>
    exact absurd (hOnTop _ _ hCandidate (hTree.entry_withBlock_self hCandidate true)).1 hBeside.other
  | savedOnly hCandidate hRival =>
    exact absurd (hOnTop _ _ hCandidate (hTree.entry_withBlock_self hCandidate false)).1 hRival.other
  | reorganised memPool hCandidate hRival =>
    exact absurd (hOnTop _ _ hCandidate (hTree.entry_withBlock_self hCandidate true)).1 hRival.other

theorem TipRun.refines (hRun : TipRun verifyScript rule node) : node.Refines verifyScript rule :=
  Run.refines (fun _ _ hTree hTip => .tip (hTip.tipStep hTree)) hRun

def Indexed (node : Node) : Prop := ∀ h index, node.entry h = some index → h ∈ node.activeBlocks.map Block.getHash

theorem initial_indexed : initial.Indexed := by
  intro h index hEntry
  rw [initial_activeBlocks, (initial_entry_cases hEntry).1, List.map_singleton, getHash_getGenesisBlock]
  exact List.mem_singleton_self _

theorem Indexed.tipStep (hIndexed : node.Indexed) (hTree : node.Tree) {node' : Node}
    (hStep : TipStep verifyScript rule node block node') : node'.Indexed := by
  cases hStep with
  | same hIndex hBlocks hTips hLedger =>
    intro h index hEntry
    rw [activeBlocks_congr hIndex hBlocks hTips]
    rw [entry, hIndex] at hEntry
    exact hIndexed h index hEntry
  | extended memPool hCandidate hTop hOk hValid hNull hRule =>
    intro h index hEntry
    replace hEntry : (node.withBlock _ _ true).entry h = some index := hEntry
    rw [hTree.activeBlocks_extended hCandidate hTop hOk hNull memPool, List.map_append, List.mem_append]
    rcases hTree.entry_withBlock_cases hCandidate.parent hEntry with ⟨rfl, -⟩ | ⟨-, hOld⟩
    · exact .inr (List.mem_singleton_self _)
    · exact .inl (hIndexed _ _ hOld)

theorem TipRun.indexed (hRun : TipRun verifyScript rule node) : node.Indexed :=
  (Run.invariant initial_indexed (fun node block _ _ hTree hIndexed hTip hAccept => by
    have hStep := hTip.tipStep hTree
    rw [hAccept] at hStep
    exact hIndexed.tipStep hTree hStep) hRun).2

end Soundness

section Completeness

variable {verifyScript : VerifyScript} {rule : BlockRule} {node : Node} {chain : List Block} {block : Block}

/-- A node whose active chain is `chain`, with nothing else in the index or waiting. -/
structure Holds (node : Node) (chain : List Block) : Prop where
  blocks : node.activeBlocks = chain
  indexed : node.Indexed
  noOrphans : node.orphanBlocks = []

theorem initial_holds : initial.Holds [getGenesisBlock] where
  blocks := initial_activeBlocks
  indexed := initial_indexed
  noOrphans := by rw [initial_eq]

theorem Holds.withPool (hHolds : node.Holds chain) (memPool : TXMemPool) : Holds { node with memPool := memPool } chain := by
  have hSame : activeBlocks { node with memPool := memPool } = node.activeBlocks := activeBlocks_congr rfl rfl rfl
  refine ⟨hSame.trans hHolds.blocks, ?_, hHolds.noOrphans⟩
  intro h index hEntry
  rw [hSame]
  exact hHolds.indexed h index hEntry

theorem Holds.candidate (hHolds : node.Holds chain) (hTree : node.Tree) (hFollows : Follows verifyScript chain block) :
    ∃ prev active, node.Candidate block prev active ∧ block.hashPrevBlock = active.hash := by
  obtain ⟨active, hActive⟩ := hTree.exists_active
  have hTop : block.hashPrevBlock = active.hash := by
    have hLast := hTree.getLast_activeBlocks hActive
    rw [hHolds.blocks, hFollows.linked] at hLast
    exact Option.some.inj hLast
  have hNew : node.entry block.getHash = none := by
    cases hEntry : node.entry block.getHash with
    | none => rfl
    | some index =>
      have hMem := hHolds.indexed _ index hEntry
      rw [hHolds.blocks] at hMem
      exact absurd hMem hFollows.fresh
  obtain ⟨prev, hPrev, -⟩ := (entry_eq_some_iff ..).mp (hTree.active_entry hActive)
  rw [← hTop] at hPrev
  exact ⟨prev, active, ⟨hNew, hPrev, hActive⟩, hTop⟩

/-- A block that may follow the chain is accepted, whatever the pool holds. -/
theorem Holds.extended (hHolds : node.Holds chain) (hTree : node.Tree) (hLedger : node.ledger = ledgerOf chain)
    (hFollows : Follows verifyScript chain block) :
    ∃ prev active memPool, node.Candidate block prev active ∧ block.hashPrevBlock = active.hash ∧
      prev.height + 1 = chain.length ∧ prev.hash ≠ Uint256.null ∧
      (node.extend block prev).procOrphanTx verifyScript = .ok memPool ∧
      acceptBlock verifyScript node block = ⟨{ node.extend block prev with memPool := memPool }, .ok true⟩ := by
  obtain ⟨prev, active, hCandidate, hTop⟩ := hHolds.candidate hTree hFollows
  have hHeight := hTree.height_onTop hCandidate hTop
  have hNull : prev.hash ≠ Uint256.null := by
    rw [hTree.prev_hash hCandidate]
    exact hFollows.parentNotNull
  rw [hHolds.blocks] at hHeight
  have hValid : VtxValid verifyScript node.ledger (prev.height + 1) block.vtx := by
    rw [hLedger, hHeight]
    exact hFollows.valid
  have hEnd : node.endResult block = .ok true := by
    rw [endResult, waiting, hHolds.noOrphans]
    rfl
  obtain ⟨memPool, hPool, hAccept⟩ := hTree.acceptBlock_extends verifyScript hCandidate hTop hFollows.ok hValid hNull
  rw [hEnd] at hAccept
  exact ⟨prev, active, memPool, hCandidate, hTop, hHeight, hNull, hPool, hAccept⟩

theorem Holds.accept (hHolds : node.Holds chain) (hTree : node.Tree) (hRefines : node.Refines verifyScript rule)
    (hFollows : Follows verifyScript chain block) (hRule : rule (ledgerOf chain) chain.length block) :
    ∃ node', Step verifyScript node block node' ∧ TipOnly verifyScript rule node block ∧
      node'.Holds (chain ++ [block]) := by
  have hLedger : node.ledger = ledgerOf chain := hHolds.blocks ▸ hRefines.ledger
  obtain ⟨prev, active, memPool, hCandidate, hTop, hHeight, hNull, -, hAccept⟩ :=
    hHolds.extended hTree hLedger hFollows
  have hTip : TipOnly verifyScript rule node block := by
    intro _
    refine ⟨active, hCandidate.active, hTop, ?_⟩
    rw [hLedger, ← hTree.prev_core_eq_active hCandidate hTop, BlockIndex.core_height, hHeight]
    exact hRule
  have hStep := hTip.tipStep hTree
  rw [hAccept] at hStep
  refine ⟨_, ⟨true, hAccept⟩, hTip, ?_, hHolds.indexed.tipStep hTree hStep, hHolds.noOrphans⟩
  rw [hTree.activeBlocks_extended hCandidate hTop hFollows.ok hNull memPool, hHolds.blocks]

/-- Every valid chain is reached. -/
theorem exists_tipRun (hChain : ValidChain verifyScript rule chain) :
    ∃ node, TipRun verifyScript rule node ∧ node.Holds chain := by
  induction hChain with
  | genesis => exact ⟨initial, .refl, initial_holds⟩
  | extend hChain hFollows hRule ih =>
    obtain ⟨node, hRun, hHolds⟩ := ih
    obtain ⟨node', hStep, hTip, hHolds'⟩ := hHolds.accept hRun.tree hRun.refines hFollows hRule
    exact ⟨node', hRun.tail ⟨_, hTip, hStep⟩, hHolds'⟩

end Completeness

end Node

end BitcoinGpuMiner
