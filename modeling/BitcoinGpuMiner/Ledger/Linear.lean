import BitcoinGpuMiner.Chain.ActiveChain
import BitcoinGpuMiner.Ledger.ValidChain

/-! # Runs without a change of branch

While no block off the active chain beats the active tip, the node refines the abstract chain:
its active blocks are a valid chain, and its ledger is the ledger of that chain.
-/

namespace BitcoinGpuMiner

open Foundation

set_option autoImplicit false

namespace Node

/-- The node stands for a valid chain. -/
structure Refines (verifyScript : VerifyScript) (rule : BlockRule) (node : Node) : Prop where
  valid : ValidChain verifyScript rule node.activeBlocks
  ledger : node.ledger = ledgerOf node.activeBlocks

/-- A call that adds nothing to the index, or a block on top of the active tip. -/
inductive TipStep (verifyScript : VerifyScript) (rule : BlockRule) (node : Node) (block : Block) : Node → Prop where
  | same {node' : Node} (hIndex : node'.blockIndex = node.blockIndex) (hBlocks : node'.blocks = node.blocks)
      (hTips : node'.tips = node.tips) (hLedger : node'.ledger = node.ledger) :
      TipStep verifyScript rule node block node'
  | extended {prev active : BlockIndex} (memPool : TXMemPool) (hCandidate : node.Candidate block prev active)
      (hTop : block.hashPrevBlock = active.hash) (hOk : blockOk block = true)
      (hValid : VtxValid verifyScript node.ledger (prev.height + 1) block.vtx) (hNull : prev.hash ≠ Uint256.null)
      (hRule : rule node.ledger (prev.height + 1) block) :
      TipStep verifyScript rule node block { node.extend block prev with memPool := memPool }

/-- What a call does to the chain and the ledger as long as no branch takes over. -/
inductive ChainStep (verifyScript : VerifyScript) (rule : BlockRule) (node : Node) (block : Block) : Node → Prop where
  | tip {node' : Node} (hStep : TipStep verifyScript rule node block node') :
      ChainStep verifyScript rule node block node'
  | branched {prev active : BlockIndex} (hCandidate : node.Candidate block prev active)
      (hNot : ¬ BlockTipManager.Beats (newIndex block prev) active) :
      ChainStep verifyScript rule node block (node.withBlock block prev true)

/-- A condition on calls under which no branch takes over and every block added obeys `rule`. -/
def Linear (verifyScript : VerifyScript) (rule : BlockRule) (allowed : Node → Block → Prop) : Prop :=
  ∀ node block, node.Tree → allowed node block →
    ChainStep verifyScript rule node block (acceptBlock verifyScript node block).node

section Refinement

variable {verifyScript : VerifyScript} {rule : BlockRule} {node : Node} {block : Block} {prev active : BlockIndex}

theorem ledgerOf_genesis : ledgerOf [getGenesisBlock] = genesisLedger := by
  rw [ledgerOf, txsOfChain, List.zipIdx_singleton, List.flatMap_singleton, blockTxs, getHash_getGenesisBlock]
  rfl

theorem initial_refines : initial.Refines verifyScript rule where
  valid := by
    rw [initial_activeBlocks]
    exact .genesis
  ledger := by
    rw [initial_activeBlocks, ledgerOf_genesis, initial_eq]

theorem Refines.congr {node' : Node} (hRefines : node.Refines verifyScript rule)
    (hIndex : node'.blockIndex = node.blockIndex) (hBlocks : node'.blocks = node.blocks)
    (hTips : node'.tips = node.tips) (hLedger : node'.ledger = node.ledger) : node'.Refines verifyScript rule := by
  have hChain := activeBlocks_congr hIndex hBlocks hTips
  exact ⟨hChain ▸ hRefines.valid, by rw [hChain, hLedger, hRefines.ledger]⟩

theorem Tree.height_onTop (hTree : node.Tree) (hCandidate : node.Candidate block prev active)
    (hTop : block.hashPrevBlock = active.hash) : prev.height + 1 = node.activeBlocks.length := by
  rw [hTree.length_activeBlocks hCandidate.active, ← hTree.prev_core_eq_active hCandidate hTop,
    BlockIndex.core_height]

theorem Tree.activeBlocks_extended (hTree : node.Tree) (hCandidate : node.Candidate block prev active)
    (hTop : block.hashPrevBlock = active.hash) (hOk : blockOk block = true) (hNull : prev.hash ≠ Uint256.null)
    (memPool : TXMemPool) :
    ({ node.extend block prev with memPool := memPool } : Node).activeBlocks = node.activeBlocks ++ [block] := by
  rw [← hTree.activeBlocks_extend hCandidate hTop hNull ((blockOk_iff _).mp hOk).2.1]
  exact activeBlocks_congr rfl rfl rfl

theorem Refines.extend (hRefines : node.Refines verifyScript rule) (hTree : node.Tree)
    (hCandidate : node.Candidate block prev active) (hTop : block.hashPrevBlock = active.hash)
    (hOk : blockOk block = true) (hValid : VtxValid verifyScript node.ledger (prev.height + 1) block.vtx)
    (hNull : prev.hash ≠ Uint256.null) (hRule : rule node.ledger (prev.height + 1) block) (memPool : TXMemPool) :
    ({ node.extend block prev with memPool := memPool } : Node).Refines verifyScript rule := by
  have hHeight := hTree.height_onTop hCandidate hTop
  have hChain := hTree.activeBlocks_extended hCandidate hTop hOk hNull memPool
  rw [hHeight, hRefines.ledger] at hValid hRule
  have hFollows : Follows verifyScript node.activeBlocks block :=
    { linked := by rw [hTree.getLast_activeBlocks hCandidate.active, hTop]
      parentNotNull := by rwa [← hTree.prev_hash hCandidate]
      fresh := fun hMem => hTree.entry_of_mem_activeBlocks hMem hCandidate.new
      ok := hOk
      valid := hValid }
  constructor
  · rw [hChain]
    exact hRefines.valid.extend hFollows hRule
  · rw [hChain, ledgerOf_append_singleton, ← hRefines.ledger, ← hHeight]
    exact extend_ledger ..

theorem Refines.tipStep (hRefines : node.Refines verifyScript rule) (hTree : node.Tree) {node' : Node}
    (hStep : TipStep verifyScript rule node block node') : node'.Refines verifyScript rule := by
  cases hStep with
  | same hIndex hBlocks hTips hLedger => exact hRefines.congr hIndex hBlocks hTips hLedger
  | extended memPool hCandidate hTop hOk hValid hNull hRule =>
    exact hRefines.extend hTree hCandidate hTop hOk hValid hNull hRule memPool

theorem Refines.step (hRefines : node.Refines verifyScript rule) (hTree : node.Tree) {node' : Node}
    (hStep : ChainStep verifyScript rule node block node') : node'.Refines verifyScript rule := by
  cases hStep with
  | tip hStep => exact hRefines.tipStep hTree hStep
  | branched hCandidate hNot =>
    have hChain := hTree.activeBlocks_branch hCandidate hNot
    exact ⟨hChain ▸ hRefines.valid, by rw [hChain, withBlock_ledger, hRefines.ledger]⟩

theorem Run.refines {allowed : Node → Block → Prop} (hLinear : Linear verifyScript rule allowed)
    (hRun : Run verifyScript allowed node) : node.Refines verifyScript rule :=
  (hRun.invariant initial_refines fun node block _ _ hTree hRefines hAllowed hAccept => by
    have hStep := hLinear node block hTree hAllowed
    rw [hAccept] at hStep
    exact hRefines.step hTree hStep).2

end Refinement

end Node

end BitcoinGpuMiner
