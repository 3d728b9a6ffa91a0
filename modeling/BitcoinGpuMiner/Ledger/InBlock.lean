import BitcoinGpuMiner.Ledger.Soundness

/-! # Transactions that depend on each other inside a block

The longest-chain branch checks all transactions of a block against the ledger before the block
and applies them afterwards. Applied one after another, each of them would be checked against
the ledger its predecessors leave.
-/

namespace BitcoinGpuMiner

open Foundation

set_option autoImplicit false

/-- Each transaction is valid on the ledger that the ones before it leave. -/
def ValidInOrder (verifyScript : VerifyScript) (hashBlock : Uint256) (height : Int) :
    Ledger → List NetMessageTransaction → Prop
  | _, [] => True
  | ledger, tx :: rest =>
    TxOk verifyScript ledger (scriptFlagsAt height) height tx ∧
      ValidInOrder verifyScript hashBlock height (ledger.processTransaction hashBlock height tx) rest

/-- The transaction spends an output of one of the given ones. -/
def DependsOn (earlier : List NetMessageTransaction) (tx : NetMessageTransaction) : Prop :=
  ∃ pt ∈ tx.spends, ∃ prior ∈ earlier, pt.hashTransaction = prior.getHash

theorem dependsOn_cons_iff (prior : NetMessageTransaction) (earlier : List NetMessageTransaction)
    (tx : NetMessageTransaction) : DependsOn (prior :: earlier) tx ↔
      (∃ pt ∈ tx.spends, pt.hashTransaction = prior.getHash) ∨ DependsOn earlier tx := by
  simp only [DependsOn, List.mem_cons, exists_eq_or_imp, and_or_left, exists_or]

section Frame

variable {verifyScript : VerifyScript} {ledger : Ledger} {scriptFlags : UInt32} {height : Int}
variable {hashBlock : Uint256} {madeAt : Int} {prior tx : NetMessageTransaction}

theorem txIndex_processTransaction_of_ne {hash : Uint256} (hOther : hash ≠ prior.getHash) :
    (ledger.processTransaction hashBlock madeAt prior).txIndex[hash]? = ledger.txIndex[hash]? :=
  lookup_insert_ne _ _ hOther.symm

theorem InputOk.of_processTransaction {i : Nat} {txIn : TxIn}
    (hOk : InputOk verifyScript (ledger.processTransaction hashBlock madeAt prior) scriptFlags height tx i txIn)
    (hOther : txIn.previousOutput.hashTransaction ≠ prior.getHash) :
    InputOk verifyScript ledger scriptFlags height tx i txIn where
  notNull := hOk.notNull
  unspent := by
    rcases (UtxoSet.unspent_cacheUTXO_iff hOk.notNull ..).mp hOk.unspent with hMade | ⟨-, hUnspent⟩
    · exact absurd (NetMessageTransaction.hash_of_mem_outPoints hMade) hOther
    · exact hUnspent
  output := by
    have hOutput := hOk.output
    rw [txIndex_processTransaction_of_ne hOther] at hOutput
    exact hOutput

theorem TxOk.of_processTransaction
    (hOk : TxOk verifyScript (ledger.processTransaction hashBlock madeAt prior) scriptFlags height tx)
    (hOther : ¬ ∃ pt ∈ tx.spends, pt.hashTransaction = prior.getHash) :
    TxOk verifyScript ledger scriptFlags height tx where
  format := hOk.format
  spend hSpend := by
    have hNe : ∀ txIn ∈ tx.vin, txIn.previousOutput.hashTransaction ≠ prior.getHash := by
      intro txIn hMem hEq
      refine hOther ⟨txIn.previousOutput, ?_, hEq⟩
      rw [NetMessageTransaction.spends, hSpend]
      exact List.mem_map_of_mem hMem
    have hSum : (ledger.processTransaction hashBlock madeAt prior).sumIn tx = ledger.sumIn tx := by
      rw [Ledger.sumIn, Ledger.sumIn]
      congr 1
      apply List.map_congr_left
      intro txIn hMem
      rw [Ledger.value, Ledger.value, Ledger.output, Ledger.output, txIndex_processTransaction_of_ne (hNe txIn hMem)]
    obtain ⟨hInputs, hNodup, hMax, hCovered⟩ := hOk.spend hSpend
    rw [hSum] at hMax hCovered
    refine ⟨?_, hNodup, hMax, hCovered⟩
    intro i txIn hGet
    exact (hInputs i txIn hGet).of_processTransaction (hNe txIn (List.mem_of_getElem? hGet))

theorem ValidInOrder.txOk {earlier later : List NetMessageTransaction}
    (hValid : ValidInOrder verifyScript hashBlock height ledger (earlier ++ tx :: later))
    (hFree : ¬ DependsOn earlier tx) : TxOk verifyScript ledger (scriptFlagsAt height) height tx := by
  induction earlier generalizing ledger with
  | nil => exact hValid.1
  | cons prior earlier ih =>
    rw [dependsOn_cons_iff, not_or] at hFree
    exact (ih hValid.2 hFree.2).of_processTransaction hFree.1

theorem ValidInOrder.of_append {earlier later : List NetMessageTransaction}
    (hValid : ValidInOrder verifyScript hashBlock height ledger (earlier ++ later)) :
    ValidInOrder verifyScript hashBlock height ledger earlier := by
  induction earlier generalizing ledger with
  | nil => trivial
  | cons prior earlier ih => exact ⟨hValid.1, ih hValid.2⟩

/-- Between the two readings of validity stand the transactions that depend on earlier ones. -/
theorem ValidInOrder.vtxValid_iff {vtx : List NetMessageTransaction}
    (hValid : ValidInOrder verifyScript hashBlock height ledger vtx) : VtxValid verifyScript ledger height vtx ↔
      ∀ earlier tx later, vtx = earlier ++ tx :: later → DependsOn earlier tx →
        TxOk verifyScript ledger (scriptFlagsAt height) height tx := by
  constructor
  · rintro hAll earlier tx later rfl -
    apply hAll
    exact List.mem_append_right _ List.mem_cons_self
  · intro hDependent tx hMem
    obtain ⟨earlier, later, rfl⟩ := List.append_of_mem hMem
    by_cases hDepends : DependsOn earlier tx
    · exact hDependent earlier tx later rfl hDepends
    · exact hValid.txOk hDepends

theorem not_txOk_of_unseen {pt : OutPoint} (hPt : pt ∈ tx.spends) (hUnseen : ledger.txIndex[pt.hashTransaction]? = none) :
    ¬ TxOk verifyScript ledger scriptFlags height tx := by
  intro hOk
  rw [NetMessageTransaction.spends] at hPt
  split at hPt
  · exact absurd hPt List.not_mem_nil
  case isFalse hSpend =>
  obtain ⟨txIn, hMem, rfl⟩ := List.mem_map.mp hPt
  obtain ⟨i, hGet⟩ := List.mem_iff_getElem?.mp hMem
  obtain ⟨idx, -, hIdx, -⟩ := ((hOk.spend (Bool.eq_false_iff.mpr hSpend)).inputs i txIn hGet).output
  cases hUnseen.symm.trans hIdx

end Frame

namespace Node

/-- A block that is valid in order is accepted on the active tip exactly when its dependent
transactions are valid before it as well, apart from what the stores say about its hash. -/
theorem accepted_iff_of_validInOrder {verifyScript : VerifyScript} {node : Node} (hReach : Reachable verifyScript node)
    {block : Block} {active : BlockIndex} (hActive : node.tips.getActiveTip = some active)
    (hTop : block.hashPrevBlock = active.hash) (hOk : blockOk block = true)
    (hValid : ValidInOrder verifyScript block.getHash (active.height + 1) node.ledger block.vtx) :
    (acceptBlock verifyScript node block).result = .ok true ↔
      node.entry block.getHash = none ∧ active.hash ≠ Uint256.null ∧ node.waiting block.getHash = false ∧
        ∀ earlier tx later, block.vtx = earlier ++ tx :: later → DependsOn earlier tx →
          TxOk verifyScript node.ledger (scriptFlagsAt (active.height + 1)) (active.height + 1) tx := by
  rw [hReach.tree.accepted_onTop_iff hActive hTop, hValid.vtxValid_iff]
  simp only [hOk, true_and]

end Node

/-! A block whose third transaction spends what its second one makes. -/

namespace Chained

open Revival

def spend : NetMessageTransaction := plainSpend output (50 * coin)

def spent : OutPoint := ⟨spend.getHash, 0⟩

def block : Block := blockOn tipHash [filler, spend, plainSpend spent (50 * coin)] 1296688603 0

theorem blockOk_block : blockOk block = true := by decide +kernel

theorem spend_ne : genesisTransaction.getHash ≠ spend.getHash ∧ paid.getHash ≠ spend.getHash ∧
    filler.getHash ≠ spend.getHash ∧ spent ≠ OutPoint.null := by
  decide +kernel

theorem lookup_spend : (ledgerOf ([getGenesisBlock] ++ firstPart)).txIndex[spend.getHash]? = none := by
  rw [ledgerOf, Ledger.replay_txIndex, Ledger.lastTx, List.find?_eq_none]
  intro idx hMem
  rw [decide_eq_true_iff]
  obtain ⟨height, made, hGet, hTx, -⟩ := exists_block_of_mem (List.mem_reverse.mp hMem)
  rcases List.mem_append.mp (List.mem_of_getElem? hGet) with hGenesis | hPart
  · rw [List.mem_singleton.mp hGenesis] at hTx
    rw [List.mem_singleton.mp hTx]
    exact spend_ne.1
  · obtain ⟨hashPrevBlock, vtx, nNonce, hRow, rfl⟩ := mem_blocksOn hPart
    rcases plain_of_mem_rows hRow with rfl | rfl
    · rw [List.mem_singleton.mp hTx]
      exact spend_ne.2.1
    · rw [List.mem_singleton.mp hTx]
      exact spend_ne.2.2.1

theorem validInOrder_block (hashBlock : Uint256) : ValidInOrder anyScript hashBlock 101
    (ledgerOf ([getGenesisBlock] ++ firstPart)) block.vtx := by
  obtain ⟨hUnspent, _, hIdx⟩ := firstPart_kept
  have hFormat : TxFormat filler := txFormat_plainCoinbase (by simp) (by simp) (by decide)
  refine ⟨⟨hFormat, ?_⟩, ?_, ?_, trivial⟩
  · intro hSpend
    cases hSpend
  · refine txOk_plainSpend paid_ne.2.2 ?_ ((txIndex_processTransaction_of_ne paid_ne.1.symm).trans hIdx) rfl ?_
      (by decide) (Int.le_refl _) (by decide)
    · refine (UtxoSet.unspent_cacheUTXO_iff paid_ne.2.2 ..).mpr (.inr ⟨?_, hUnspent⟩)
      rw [filler, spends_plainCoinbase]
      exact List.not_mem_nil
    · intro _
      change coinbaseMaturity ≤ 101 - 1
      decide
  · refine txOk_plainSpend spend_ne.2.2.2 ?_ (lookup_insert_self ..) rfl ?_ (by decide) (Int.le_refl _) (by decide)
    · refine (UtxoSet.unspent_cacheUTXO_iff spend_ne.2.2.2 ..).mpr (.inl ?_)
      exact List.mem_map_of_mem (List.mem_range.mpr Nat.one_pos)
    · intro hCoinBase
      cases hCoinBase.symm.trans (isCoinBase_plainSpend paid_ne.2.2 _)

theorem spends_last : (plainSpend spent (50 * coin)).spends = [spent] := spends_plainSpend spend_ne.2.2.2 _

/-- The last transaction is not valid before the block. -/
theorem not_txOk_last (scriptFlags : UInt32) (height : Int) :
    ¬ TxOk anyScript (ledgerOf ([getGenesisBlock] ++ firstPart)) scriptFlags height (plainSpend spent (50 * coin)) := by
  have hSpent : spent ∈ (plainSpend spent (50 * coin)).spends := by
    rw [spends_last]
    exact List.mem_singleton_self _
  have hUnseen : (ledgerOf ([getGenesisBlock] ++ firstPart)).txIndex[spent.hashTransaction]? = none := lookup_spend
  exact not_txOk_of_unseen hSpent hUnseen

/-- Without it nothing depends on an earlier transaction. -/
theorem not_dependsOn_spend : ¬ DependsOn [filler] spend := by
  rintro ⟨pt, hPt, prior, hPrior, hHash⟩
  rw [spend, spends_plainSpend paid_ne.2.2, List.mem_singleton] at hPt
  rw [List.mem_singleton] at hPrior
  subst hPt hPrior
  exact paid_ne.1 hHash.symm

theorem not_dependsOn_firstSpend {earlier later : List NetMessageTransaction} {tx : NetMessageTransaction}
    (hVtx : firstSpend.vtx = earlier ++ tx :: later) : ¬ DependsOn earlier tx := by
  replace hVtx : [filler, spend] = earlier ++ tx :: later := hVtx
  rcases earlier with _ | ⟨head, _ | ⟨next, earlier⟩⟩
  · rintro ⟨pt, -, prior, hPrior, -⟩
    cases hPrior
  · cases hVtx
    exact not_dependsOn_spend
  · simp at hVtx

end Chained

namespace Node

/-- The whole block is refused, and without its last transaction it is accepted. -/
theorem accepted_iff_of_validInOrder_chained : ∃ (node : Node) (active : BlockIndex), Reachable anyScript node ∧
    node.tips.getActiveTip = some active ∧ Chained.block.hashPrevBlock = active.hash ∧
      Revival.firstSpend.hashPrevBlock = active.hash ∧ Chained.block.vtx = Revival.firstSpend.vtx ++
        [plainSpend Chained.spent (50 * coin)] ∧
      (acceptBlock anyScript node Chained.block).result ≠ .ok true ∧
      (acceptBlock anyScript node Revival.firstSpend).result = .ok true := by
  obtain ⟨node, tip, hRun, hHolds, hLedger, hTip, hHeight, hHash⟩ := Revival.exists_firstPart
  have hTree : node.Tree := Run.tree hRun
  have hReach : Reachable anyScript node := Run.reachable hRun
  have hFollows : Follows anyScript ([getGenesisBlock] ++ Revival.firstPart) Revival.firstSpend := by
    rcases Revival.valid_firstSpend.follows_of_split rfl with ⟨hNil, -⟩ | ⟨hFollows, -⟩
    · cases hNil
    · exact hFollows
  obtain ⟨prev, active, hCandidate, hTop⟩ := hHolds.candidate hTree hFollows
  obtain rfl : active = tip := Option.some.inj (hCandidate.active.symm.trans hTip)
  have hValid (hashBlock : Uint256) :
      ValidInOrder anyScript hashBlock (active.height + 1) node.ledger Chained.block.vtx := by
    rw [hLedger, hHeight]
    exact Chained.validInOrder_block hashBlock
  refine ⟨node, active, hReach, hTip, hHash.symm, hTop, rfl, ?_, ?_⟩
  · rw [Ne, accepted_iff_of_validInOrder hReach hTip hHash.symm Chained.blockOk_block (hValid _)]
    rintro ⟨-, -, -, hDependent⟩
    have hLast := hDependent [Revival.filler, Chained.spend] _ [] rfl
      ⟨Chained.spent, by rw [Chained.spends_last]; exact List.mem_singleton_self _, Chained.spend, by simp, rfl⟩
    rw [hLedger] at hLast
    exact Chained.not_txOk_last _ _ hLast
  · have hFirst : ValidInOrder anyScript Revival.firstSpend.getHash (active.height + 1) node.ledger
        Revival.firstSpend.vtx := ValidInOrder.of_append (hValid _)
    refine (accepted_iff_of_validInOrder hReach hTip hTop hFollows.ok hFirst).mpr ⟨hCandidate.new, ?_, ?_, ?_⟩
    · rw [← hTop]
      exact hFollows.parentNotNull
    · rw [waiting, hHolds.noOrphans]
      rfl
    · intro earlier tx later hVtx hDepends
      exact absurd hDepends (Chained.not_dependsOn_firstSpend hVtx)

/-- The block is valid in order and refused. -/
theorem exists_chained_refused : ∃ (verifyScript : VerifyScript) (node : Node) (block : Block) (active : BlockIndex),
    Reachable verifyScript node ∧ node.tips.getActiveTip = some active ∧ block.hashPrevBlock = active.hash ∧
      blockOk block = true ∧ ValidInOrder verifyScript block.getHash (active.height + 1) node.ledger block.vtx ∧
      (acceptBlock verifyScript node block).result = .ok false := by
  obtain ⟨node, tip, hRun, -, hLedger, hTip, hHeight, hHash⟩ := Revival.exists_firstPart
  have hTop : Chained.block.hashPrevBlock = tip.hash := hHash.symm
  refine ⟨anyScript, node, Chained.block, tip, Run.reachable hRun, hTip, hTop, Chained.blockOk_block, ?_, ?_⟩
  · rw [hLedger, hHeight]
    exact Chained.validInOrder_block _
  · apply Tree.refused_onTop (Run.tree hRun) hTip hTop
    rintro ⟨-, hValid⟩
    have hLast : plainSpend Chained.spent (50 * coin) ∈ Chained.block.vtx := by simp [Chained.block, blockOn]
    rw [hLedger] at hValid
    exact Chained.not_txOk_last _ _ (hValid _ hLast)

end Node

end BitcoinGpuMiner
