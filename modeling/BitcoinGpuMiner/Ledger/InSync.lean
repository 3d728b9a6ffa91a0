import BitcoinGpuMiner.Chain.PlainBlock
import BitcoinGpuMiner.Ledger.Linear

/-! # The ledger and the active chain

Along every run that never lets a block off the active chain beat the active tip, the
ledger is the replay of the active chain.
-/

namespace BitcoinGpuMiner

open Foundation

set_option autoImplicit false

namespace Node

/-- A valid new block off the active tip stays below the tip, or level with it under a hash that
is not smaller. -/
def StaysBelow (node : Node) (block : Block) : Prop :=
  ∀ prev active : BlockIndex, node.entry block.getHash = none →
    node.blockIndex[block.hashPrevBlock]? = some prev → node.tips.getActiveTip = some active →
    block.hashPrevBlock ≠ active.hash → node.checkBlock block = .ok true →
    prev.height + 1 < active.height ∨ (prev.height + 1 = active.height ∧ ¬ block.getHash < active.hash)

theorem StaysBelow.height_le {node : Node} {block : Block} {prev active : BlockIndex}
    (hBelow : node.StaysBelow block) (hTree : node.Tree) (hCandidate : node.Candidate block prev active)
    (hOther : block.hashPrevBlock ≠ active.hash) (hOk : blockOk block = true) :
    prev.height + 1 < active.height ∨ (prev.height + 1 = active.height ∧ ¬ block.getHash < active.hash) :=
  hBelow prev active hCandidate.new hCandidate.parent hCandidate.active hOther
    (by rw [hTree.checkBlock_eq, hOk])

/-- What the condition rules out are the cases in which another branch takes over. -/
theorem staysBelow_linear (verifyScript : VerifyScript) : Linear verifyScript BlockRule.any StaysBelow := by
  intro node block hTree hBelow
  have hCase := hTree.acceptBlock_cases verifyScript block
  generalize acceptBlock verifyScript node block = outcome at hCase
  cases hCase with
  | known | notExtended | notBranched | crashed | notOvertaken => exact .tip (.same rfl rfl rfl rfl)
  | orphan =>
    obtain ⟨orphanBlocks, hNode⟩ := acceptOrphan_node node block
    rw [hNode]
    exact .tip (.same rfl rfl rfl rfl)
  | extended memPool hCandidate hTop hOk hValid hNull =>
    exact .tip (.extended memPool hCandidate hTop hOk hValid hNull trivial)
  | branched hCandidate hBeside hOk hNull =>
    have hHeight := hBelow.height_le hTree hCandidate hBeside.other hOk
    refine .branched hCandidate ?_
    rintro (hHigher | ⟨hSame, hHash⟩)
    · rw [newIndex_height] at hHigher
      omega
    · rw [newIndex_height] at hSame
      rcases hHeight with hLow | ⟨-, hNot⟩
      · omega
      · exact hNot hHash
  | savedOnly hCandidate hRival hNull hOne hOk =>
    have hHeight := hBelow.height_le hTree hCandidate hRival.other hOk
    have hSame := hRival.height
    omega
  | reorganised memPool hCandidate hRival hNull hOne hOk =>
    have hHeight := hBelow.height_le hTree hCandidate hRival.other hOk
    have hSame := hRival.height
    omega

/-- In every state of such a run the UTXO set is `CacheUTXO` over the active chain, and the
transaction index holds, for each hash, the last transaction of that chain with its block. -/
theorem ledger_eq_replay_of_staysBelow {verifyScript : VerifyScript} {node : Node}
    (hRun : Run verifyScript StaysBelow node) :
    node.ledger.utxo = Ledger.replayUTXO node.chainTxs ∧
      ∀ hash : Uint256, node.ledger.txIndex[hash]? = Ledger.lastTx node.chainTxs hash := by
  rw [(hRun.refines (staysBelow_linear verifyScript)).ledger, hRun.tree.chainTxs_eq]
  exact ⟨Ledger.replay_utxo _, Ledger.replay_txIndex _⟩

theorem staysBelow_onTop {node : Node} {block : Block} {active : BlockIndex}
    (hActive : node.tips.getActiveTip = some active) (hTop : block.hashPrevBlock = active.hash) :
    node.StaysBelow block := by
  intro prev other hNew hParent hOther hNe
  cases hActive.symm.trans hOther
  exact absurd hTop hNe

/-- The second of two blocks of height one arrives with the larger hash. -/
theorem ledger_eq_replay_of_late_rival :
    (acceptAll anyScript initial [rivalBlock 1, rivalBlock 2]).ledger.utxo =
        Ledger.replayUTXO (acceptAll anyScript initial [rivalBlock 1, rivalBlock 2]).chainTxs ∧
      ∀ hash : Uint256, (acceptAll anyScript initial [rivalBlock 1, rivalBlock 2]).ledger.txIndex[hash]? =
        Ledger.lastTx (acceptAll anyScript initial [rivalBlock 1, rivalBlock 2]).chainTxs hash := by
  have hReturns := tied_evaluated.1
  rw [returnsAll, returnsAll, returnsAll, Bool.and_true, Bool.and_eq_true] at hReturns
  have hFirst : initial.StaysBelow (rivalBlock 1) := staysBelow_onTop initial_activeTip rfl
  have hEvaluated : (acceptBlock anyScript initial (rivalBlock 1)).node.tips.getActiveTip =
        some (BlockIndex.make 1 (rivalBlock 1).getHash params.hashGenesisBlock) ∧
      ((acceptBlock anyScript initial (rivalBlock 1)).node.entry params.hashGenesisBlock).map BlockIndex.height =
        some 0 ∧
      ¬ (rivalBlock 2).getHash < (rivalBlock 1).getHash := by
    decide +kernel
  obtain ⟨hActive, hParent, hLarger⟩ := hEvaluated
  have hSecond : (acceptBlock anyScript initial (rivalBlock 1)).node.StaysBelow (rivalBlock 2) := by
    intro prev active hNew hPrev hOther hNe hCheck
    cases hActive.symm.trans hOther
    have hPrevHeight : prev.height = 0 := by
      rw [Tree.entry_of_lookup (h := params.hashGenesisBlock) hPrev] at hParent
      exact Option.some.inj hParent
    exact .inr ⟨by rw [hPrevHeight]; rfl, hLarger⟩
  exact ledger_eq_replay_of_staysBelow
    (.tail (.tail .refl ⟨_, hFirst, step_of_isOk hReturns.1⟩) ⟨_, hSecond, step_of_isOk hReturns.2⟩)

/-- In the other order the second block becomes the active tip, but the ledger holds the first. -/
theorem ledger_behind_after_tie : ∃ (verifyScript : VerifyScript) (node : Node), Reachable verifyScript node ∧
    node.ledger.utxo ≠ Ledger.replayUTXO node.chainTxs := by
  have hEvaluated : returnsAll anyScript initial [rivalBlock 2, rivalBlock 1] = true ∧
      (Ledger.replayUTXO (acceptAll anyScript initial [rivalBlock 2, rivalBlock 1]).chainTxs)[
        (⟨(plainCoinbase [2, 0] (50 * coin)).getHash, 0⟩ : OutPoint)]? = none ∧
      (acceptAll anyScript initial [rivalBlock 2, rivalBlock 1]).ledger.utxo[
        (⟨(plainCoinbase [2, 0] (50 * coin)).getHash, 0⟩ : OutPoint)]? ≠ none := by
    decide +kernel
  obtain ⟨hReturns, hReplayed, hKept⟩ := hEvaluated
  refine ⟨anyScript, acceptAll anyScript initial [rivalBlock 2, rivalBlock 1],
    Reachable.acceptAll _ .refl hReturns, fun hEq => ?_⟩
  rw [hEq] at hKept
  exact hKept hReplayed

end Node

end BitcoinGpuMiner
