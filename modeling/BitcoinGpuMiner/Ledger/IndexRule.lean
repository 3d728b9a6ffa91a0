import BitcoinGpuMiner.Chain.Reachable

/-! # The entries of the transaction index

An entry gets into the index only after its transaction has passed the checks that need no state, at a height that
is not negative. What follows from that holds of all of them.
-/

namespace BitcoinGpuMiner

open Foundation

set_option autoImplicit false

section Checked

variable {verifyScript : VerifyScript} {ledger : Ledger} {scriptFlags : UInt32} {height : Int} {overlay : Option Overlay}

theorem format_of_checkTransaction {tx : NetMessageTransaction} {result result' : CheckTransactionResult}
    (hCheck : checkTransaction verifyScript ledger scriptFlags height overlay tx result = .ok (some result')) :
    TxFormat tx := by
  by_contra hNot
  rw [checkTransaction_of_not_format _ _ _ _ _ _ hNot] at hCheck
  cases hCheck

/-- Each transaction has been checked, with what the earlier ones left. -/
theorem exists_check_of_loop {vtx : List NetMessageTransaction} {result result' : CheckTransactionResult}
    (hCheck : checkTransactionsLoop verifyScript ledger scriptFlags height overlay vtx result = .ok (some result')) :
    ∀ tx ∈ vtx, ∃ before after,
      checkTransaction verifyScript ledger scriptFlags height overlay tx before = .ok (some after) := by
  induction vtx generalizing result with
  | nil =>
    intro tx hMem
    cases hMem
  | cons tx rest ih =>
    rw [checkTransactionsLoop] at hCheck
    cases hTx : checkTransaction verifyScript ledger scriptFlags height overlay tx result with
    | error fault =>
      rw [hTx] at hCheck
      cases hCheck
    | ok passed =>
      rw [hTx] at hCheck
      cases passed with
      | none => cases hCheck
      | some next => exact List.forall_mem_cons.mpr ⟨⟨result, next, hTx⟩, ih hCheck⟩

theorem format_of_checkTransactions {vtx : List NetMessageTransaction} {result : CheckTransactionResult}
    (hCheck : checkTransactions verifyScript ledger scriptFlags height overlay vtx = .ok (some result)) :
    ∀ tx ∈ vtx, TxFormat tx := by
  intro tx hTx
  obtain ⟨before, after, hPassed⟩ := exists_check_of_loop hCheck tx hTx
  exact format_of_checkTransaction hPassed

end Checked

section Ledger

variable {ledger : Ledger} {p : Uint256 → TxIdx → Prop}

theorem Ledger.allEntries_processTransactions (hAll : AllEntries p ledger.txIndex) {vtx : List NetMessageTransaction}
    {hashBlock : Uint256} {height : Int} (hVtx : ∀ tx ∈ vtx, p tx.getHash ⟨hashBlock, height, tx⟩) :
    AllEntries p (ledger.processTransactions vtx hashBlock height).txIndex := by
  induction vtx generalizing ledger with
  | nil => exact hAll
  | cons tx rest ih =>
    obtain ⟨hTx, hRest⟩ := List.forall_mem_cons.mp hVtx
    exact ih (hAll.insert hTx) hRest

theorem Ledger.allEntries_clearTransactions (hAll : AllEntries p ledger.txIndex) (vtx : List NetMessageTransaction) :
    AllEntries p (vtx.foldl clearTransaction ledger).txIndex := by
  induction vtx generalizing ledger with
  | nil => exact hAll
  | cons tx rest ih => exact ih (hAll.erase _)

variable {verifyScript : VerifyScript} {node : Node} {block : Block}

/-- A property of the entries is kept if those that the block may add have it. -/
theorem Node.AcceptCase.allEntries {outcome : Outcome} (hCase : AcceptCase verifyScript node block outcome)
    (hTree : node.Tree) (hAll : AllEntries p node.ledger.txIndex)
    (hNew : ∀ tx ∈ block.vtx, TxFormat tx → ∀ height : Int, 0 ≤ height → p tx.getHash ⟨block.getHash, height, tx⟩) :
    AllEntries p outcome.node.ledger.txIndex := by
  have hHeight {prev active : BlockIndex} (hCandidate : node.Candidate block prev active) : 0 ≤ prev.height + 1 := by
    have hNonneg := hTree.nonneg _ _ (Tree.candidate_entry hCandidate)
    rw [BlockIndex.core_height] at hNonneg
    omega
  cases hCase with
  | known | notExtended | branched | notBranched | crashed | notOvertaken | savedOnly => exact hAll
  | orphan =>
    obtain ⟨orphanBlocks, hNode⟩ := acceptOrphan_node node block
    rw [hNode]
    exact hAll
  | extended memPool hCandidate hTop hOk hValid =>
    exact Ledger.allEntries_processTransactions hAll fun tx hTx => hNew tx hTx (hValid tx hTx).format _ (hHeight hCandidate)
  | reorganised memPool hCandidate hRival hNull hActive hOk hCheck =>
    refine Ledger.allEntries_processTransactions (Ledger.allEntries_clearTransactions hAll _) ?_
    intro tx hTx
    exact hNew tx hTx (format_of_checkTransactions hCheck tx hTx) _ (hHeight hCandidate)

end Ledger

end BitcoinGpuMiner
