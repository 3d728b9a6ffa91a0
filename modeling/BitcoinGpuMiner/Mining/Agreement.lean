import BitcoinGpuMiner.Ledger.GenesisOutput
import BitcoinGpuMiner.Mining.Selection
import BitcoinGpuMiner.Wire.Separation
import BitcoinGpuMiner.Wire.Stored

/-! # The miner and the validator

A template that is solved is accepted exactly when the transactions in reach of the selection could be put into one
block together, and no hash comes up twice; the selection itself looks at each transaction alone.
-/

namespace BitcoinGpuMiner

open Foundation

set_option autoImplicit false

/-- The block passes both checks and is accepted on the active tip. -/
structure Node.Agrees (verifyScript : VerifyScript) (node : Node) (tip : BlockIndex) (block : Block) : Prop where
  checkBlock : node.checkBlock block = .ok true
  checkTransactions : ∃ result, checkTransactions verifyScript node.ledger (scriptFlagsAt (tip.height + 1))
    (tip.height + 1) none block.vtx = .ok (some result)
  accepted : (acceptBlock verifyScript node block).result = .ok true

/-- The transactions of the pool that a template has room for. -/
def Node.selectable (node : Node) : List NetMessageTransaction := (node.memPool.inReach node.ledger).map Prod.snd

/-- They could be put into one block together, and the selection stops after them. -/
structure Node.PoolFits (verifyScript : VerifyScript) (node : Node) (tip : BlockIndex) : Prop where
  valid : VtxValid verifyScript node.ledger (tip.height + 1) node.selectable
  spending : ∀ tx ∈ node.selectable, tx.isCoinBase = false
  distinct : (node.selectable.flatMap NetMessageTransaction.prevOuts).Nodup
  sigOps : (node.selectable.map fun tx => tx.sigOps).sum * witnessScaleFactor ≤ maxBlockSigopsCost
  reward : moneyRange (toInt64 (node.ledger.feesOf node.selectable + getBlockSubsidy (tip.height + 1))) = true
  stops : node.memPool.Stops node.ledger

/-- A block on the active tip shares its hash with no other header, its coinbase shares its txid with no other
transaction, no orphan names the block as its parent, and the tip's hash does not mean that there is none. -/
structure Node.NoClash (node : Node) (tip : BlockIndex) (block : Block) : Prop where
  stored : ∀ h index other, node.entry h = some index → node.blocks[h]? = some other →
    other.getHash = block.getHash → other.toBlockHeader = block.toBlockHeader
  coinbase : ∀ cbtx, block.vtx.head? = some cbtx → ∀ tx ∈ node.selectable, tx.getHash = cbtx.getHash →
    tx.serialize false = cbtx.serialize false
  noOrphan : node.waiting block.getHash = false
  tipNotNull : tip.hash ≠ Uint256.null

/-- The same of any selection, as the checks see it. -/
structure Submittable (verifyScript : VerifyScript) (node : Node) (tip : BlockIndex) (selection : Selection)
    (block : Block) : Prop where
  valid : VtxValid verifyScript node.ledger (tip.height + 1) selection.vtx
  spending : ∀ tx ∈ selection.vtx, tx.isCoinBase = false
  distinct : (selection.vtx.flatMap NetMessageTransaction.prevOuts).Nodup
  sigOps : sigOpsWithin 0 selection.vtx
  reward : moneyRange (toInt64 (selection.nFees + getBlockSubsidy (tip.height + 1))) = true
  coinbaseId : ∀ tx ∈ selection.vtx, block.vtx.head?.map NetMessageTransaction.getHash ≠ some tx.getHash
  fresh : node.entry block.getHash = none
  tipNotNull : tip.hash ≠ Uint256.null
  noOrphan : node.waiting block.getHash = false

section Contents

variable {coinbase : NetMessageTransaction} {txs : List NetMessageTransaction}

/-- The transaction loop of `CheckBlock` on a coinbase without signature operations and other transactions. -/
theorem vtxOk_cons_iff (hCoinBase : coinbase.isCoinBase = true) (hPrevOuts : coinbase.prevOuts = [OutPoint.null])
    (hSigOps : coinbase.getLegacySigOpCount = 0) : VtxOk true (coinbase :: txs) ⟨[], [], 0⟩ ↔
      (∀ tx ∈ txs, tx.isCoinBase = false) ∧ (coinbase.getHash ∉ txs.map NetMessageTransaction.getHash ∧
        (txs.map NetMessageTransaction.getHash).Nodup) ∧
      (OutPoint.null ∉ txs.flatMap NetMessageTransaction.prevOuts ∧
        (txs.flatMap NetMessageTransaction.prevOuts).Nodup) ∧ sigOpsWithin 0 txs := by
  have hOps : sigOpsWithin 0 (coinbase :: txs) ↔ sigOpsWithin 0 txs := by
    rw [sigOpsWithin, hSigOps]
    exact and_iff_right (by decide)
  have hOuts : ((coinbase :: txs).flatMap NetMessageTransaction.prevOuts).Nodup ↔
      OutPoint.null ∉ txs.flatMap NetMessageTransaction.prevOuts ∧
        (txs.flatMap NetMessageTransaction.prevOuts).Nodup := by
    rw [List.flatMap_cons, hPrevOuts, List.singleton_append, List.nodup_cons]
  have hIds : ((coinbase :: txs).map NetMessageTransaction.getHash).Nodup ↔
      coinbase.getHash ∉ txs.map NetMessageTransaction.getHash ∧ (txs.map NetMessageTransaction.getHash).Nodup := by
    rw [List.map_cons, List.nodup_cons]
  constructor
  · intro hVtx
    exact ⟨hVtx.coinbase.2, hIds.mp hVtx.txidsNodup, hOuts.mp hVtx.prevOutsNodup, hOps.mp hVtx.sigOps⟩
  · rintro ⟨hSpending, hTxids, hPrev, hWithin⟩
    exact ⟨⟨hCoinBase, hSpending⟩, hIds.mpr hTxids, fun _ _ => List.not_mem_nil, hOuts.mpr hPrev,
      fun _ _ => List.not_mem_nil, hOps.mpr hWithin⟩

theorem null_not_mem_prevOuts {verifyScript : VerifyScript} {ledger : Ledger} {height : Int}
    (hValid : VtxValid verifyScript ledger height txs) (hSpending : ∀ tx ∈ txs, tx.isCoinBase = false) :
    OutPoint.null ∉ txs.flatMap NetMessageTransaction.prevOuts := by
  intro hMem
  obtain ⟨tx, hTx, hNull⟩ := List.mem_flatMap.mp hMem
  obtain ⟨txIn, hTxIn, hEq⟩ := List.mem_map.mp hNull
  obtain ⟨i, hGet⟩ := List.mem_iff_getElem?.mp hTxIn
  exact (((hValid tx hTx).spend (hSpending tx hTx)).inputs i txIn hGet).notNull hEq

end Contents

section Block

def minedBlock (tip : BlockIndex) (script : CScript) (time : UInt32) (selection : Selection) (nNonce : UInt32) : Block :=
  { templateBlock tip script time selection with nBits := proofOfWorkLimit, nNonce := nNonce }

def templateCoinbase (tip : BlockIndex) (script : CScript) (selection : Selection) : NetMessageTransaction :=
  coinbaseTransaction (tip.height + 1) script (toInt64 (selection.nFees + getBlockSubsidy (tip.height + 1)))
    (Block.makeWitnessMerkleRoot ⟨⟨0x20000000, tip.hash, Uint256.null, 0, 0, 0⟩,
      placeholderTransaction :: selection.vtx⟩).hash

variable (tip : BlockIndex) (time nNonce : UInt32) {script : CScript} {selection : Selection}

theorem minedBlock_vtx (script : CScript) (selection : Selection) :
    (minedBlock tip script time selection nNonce).vtx = templateCoinbase tip script selection :: selection.vtx := rfl

theorem minedBlock_size (hScript : WitnessScript script) (hWeight : 80 + weightOf selection.vtx ≤ nBlockMaxWeight) :
    (minedBlock tip script time selection nNonce).vtx.length * witnessScaleFactor ≤ maxBlockWeight ∧
      (minedBlock tip script time selection nNonce).getSerializeSize * witnessScaleFactor ≤ maxBlockWeight := by
  have hCount := length_le_weightOf selection.vtx
  have hCoinbase : (templateCoinbase tip script selection).getSerializeSize ≤ 400 :=
    getSerializeSize_coinbaseTransaction_le _ _ _ hScript
  have hMax : nBlockMaxWeight = 3996000 := rfl
  have hCompact := length_writeCompactSize_le (minedBlock tip script time selection nNonce).vtx.length
  have hSize : (minedBlock tip script time selection nNonce).getSerializeSize =
      80 + ((writeCompactSize (minedBlock tip script time selection nNonce).vtx.length).length +
        ((templateCoinbase tip script selection).getSerializeSize +
          (selection.vtx.map NetMessageTransaction.getSerializeSize).sum)) := by
    rw [Block.getSerializeSize, Block.serialize, List.length_append, BlockHeader.length_serialize, length_writeVector,
      minedBlock_vtx, List.map_cons, List.sum_cons]
    rfl
  rw [weightOf_eq, witnessScaleFactor] at hWeight hCount
  rw [hSize, minedBlock_vtx, List.length_cons, witnessScaleFactor, maxBlockWeight]
  rw [minedBlock_vtx, List.length_cons] at hCompact
  omega

theorem contentsOk_minedBlock_iff (hScript : WitnessScript script)
    (hWeight : 80 + weightOf selection.vtx ≤ nBlockMaxWeight) :
    checkBlockContents (minedBlock tip script time selection nNonce) = true ↔
      VtxOk true (templateCoinbase tip script selection :: selection.vtx) ⟨[], [], 0⟩ := by
  obtain ⟨hCount, hSize⟩ := minedBlock_size tip time nNonce hScript hWeight
  rw [checkBlockContents_iff]
  constructor
  · intro hContents
    exact hContents.vtx
  · intro hVtx
    exact ⟨List.cons_ne_nil _ _, hCount, hSize, hVtx, rfl⟩

theorem blockOk_minedBlock_iff (hScript : WitnessScript script)
    (hWeight : 80 + weightOf selection.vtx ≤ nBlockMaxWeight)
    (hWork : checkProofOfWork (minedBlock tip script time selection nNonce).getHash proofOfWorkLimit = true) :
    blockOk (minedBlock tip script time selection nNonce) = true ↔
      VtxOk true (templateCoinbase tip script selection :: selection.vtx) ⟨[], [], 0⟩ := by
  rw [blockOk_iff, contentsOk_minedBlock_iff tip time nNonce hScript hWeight]
  constructor
  · intro hOk
    exact hOk.1
  · intro hVtx
    exact ⟨hVtx, rfl, hWork⟩

theorem vtxValid_minedBlock_iff (verifyScript : VerifyScript) (ledger : Ledger) (hScript : WitnessScript script) :
    VtxValid verifyScript ledger (tip.height + 1) (minedBlock tip script time selection nNonce).vtx ↔
      moneyRange (toInt64 (selection.nFees + getBlockSubsidy (tip.height + 1))) = true ∧
        VtxValid verifyScript ledger (tip.height + 1) selection.vtx := by
  have hCoinbase : TxOk verifyScript ledger (scriptFlagsAt (tip.height + 1)) (tip.height + 1)
      (templateCoinbase tip script selection) ↔
        moneyRange (toInt64 (selection.nFees + getBlockSubsidy (tip.height + 1))) = true := by
    rw [← txFormat_coinbaseTransaction_iff _ _ _ hScript]
    constructor
    · intro hTx
      exact hTx.format
    · intro hFormat
      refine ⟨hFormat, fun hNot => ?_⟩
      cases (isCoinBase_coinbaseTransaction _ _ _ _).symm.trans hNot
  rw [minedBlock_vtx, VtxValid, List.forall_mem_cons, hCoinbase]
  rfl

/-- The transactions a template takes from the pool have different hashes and, if they are not too large one by
one, fit into the bound together. -/
theorem getNewBlockTxs_spec {memPool : TXMemPool} (ledger : Ledger) (hKeyed : memPool.Keyed) :
    ((getNewBlockTxs ledger memPool).vtx.map NetMessageTransaction.getHash).Nodup ∧
      ((∀ tx ∈ (getNewBlockTxs ledger memPool).vtx, tx.getSerializeSize * witnessScaleFactor ≤ maxBlockWeight) →
        80 + weightOf (getNewBlockTxs ledger memPool).vtx ≤ nBlockMaxWeight) := by
  obtain ⟨txs, hVtx, hSublist, hWeight⟩ :=
    exists_selected ledger memPool.pool.toList ⟨{ memPool with miningPool := ∅ }, 0, 80, []⟩
  rw [List.nil_append] at hVtx
  rw [getNewBlockTxs, hVtx]
  constructor
  · have hNodup : ((memPool.pool.toList.map Prod.snd).map NetMessageTransaction.getHash).Nodup := by
      rw [List.map_map]
      exact hKeyed.pool.nodup_toList
    exact hNodup.sublist (hSublist.map _)
  · intro hSizes
    exact hWeight hSizes (by decide : 80 ≤ nBlockMaxWeight)

end Block

namespace Node

/-- A block made from a selection is accepted exactly when its transactions pass the checks. -/
theorem agrees_minedBlock_iff (verifyScript : VerifyScript) {node : Node} (hTree : node.Tree) {script : CScript}
    (hScript : WitnessScript script) {tip : BlockIndex} (hTip : node.tips.getActiveTip = some tip) {selection : Selection}
    (hIds : (selection.vtx.map NetMessageTransaction.getHash).Nodup)
    (hFits : (∀ tx ∈ selection.vtx, tx.getSerializeSize * witnessScaleFactor ≤ maxBlockWeight) →
      80 + weightOf selection.vtx ≤ nBlockMaxWeight) (time nNonce : UInt32)
    (hWork : checkProofOfWork (minedBlock tip script time selection nNonce).getHash proofOfWorkLimit = true) :
    Agrees verifyScript node tip (minedBlock tip script time selection nNonce) ↔
      Submittable verifyScript node tip selection (minedBlock tip script time selection nNonce) := by
  have hWeight : VtxValid verifyScript node.ledger (tip.height + 1) selection.vtx →
      80 + weightOf selection.vtx ≤ nBlockMaxWeight := by
    intro hValid
    exact hFits fun tx hTx => (hValid tx hTx).format.size
  have hVtxOk : VtxOk true (templateCoinbase tip script selection :: selection.vtx) ⟨[], [], 0⟩ ↔ _ :=
    vtxOk_cons_iff (isCoinBase_coinbaseTransaction ..) (prevOuts_coinbaseTransaction ..)
      (getLegacySigOpCount_coinbaseTransaction _ _ _ hScript)
  have hTop : (minedBlock tip script time selection nNonce).hashPrevBlock = tip.hash := rfl
  constructor
  · rintro ⟨hCheck, ⟨result, hResult⟩, hAccepted⟩
    obtain ⟨hReward, hValid⟩ := (vtxValid_minedBlock_iff tip time nNonce _ _ hScript).mp
      ((checkTransactions_eq_some_iff ..).mp hResult).1
    rw [hTree.checkBlock_eq, Except.ok.injEq, blockOk_minedBlock_iff tip time nNonce hScript (hWeight hValid) hWork,
      hVtxOk] at hCheck
    obtain ⟨hSpending, ⟨hCoinbaseId, -⟩, ⟨-, hDistinct⟩, hSigOps⟩ := hCheck
    obtain ⟨hFresh, hNull, hNoOrphan, -⟩ := (hTree.accepted_onTop_iff hTip hTop).mp hAccepted
    refine ⟨hValid, hSpending, hDistinct, hSigOps, hReward, ?_, hFresh, hNull, hNoOrphan⟩
    intro tx hTx hEq
    exact hCoinbaseId (Option.some.inj hEq ▸ List.mem_map_of_mem hTx)
  · intro hOk
    have hVtx : VtxOk true (templateCoinbase tip script selection :: selection.vtx) ⟨[], [], 0⟩ := by
      refine hVtxOk.mpr ⟨hOk.spending, ⟨?_, hIds⟩, ⟨null_not_mem_prevOuts hOk.valid hOk.spending, hOk.distinct⟩,
        hOk.sigOps⟩
      intro hMem
      obtain ⟨tx, hTx, hEq⟩ := List.mem_map.mp hMem
      exact hOk.coinbaseId tx hTx (congrArg some hEq.symm)
    have hBlockOk := (blockOk_minedBlock_iff tip time nNonce hScript (hWeight hOk.valid) hWork).mpr hVtx
    have hValid := (vtxValid_minedBlock_iff tip time nNonce verifyScript node.ledger hScript).mpr
      ⟨hOk.reward, hOk.valid⟩
    refine ⟨by rw [hTree.checkBlock_eq, hBlockOk], ⟨_, (checkTransactions_eq_some_iff ..).mpr ⟨hValid, rfl⟩⟩, ?_⟩
    exact (hTree.accepted_onTop_iff hTip hTop).mpr ⟨hOk.fresh, hOk.tipNotNull, hOk.noOrphan, hBlockOk, hValid⟩

section Pool

variable {verifyScript : VerifyScript} {node : Node} {tip : BlockIndex} {selection : Selection}

theorem sum_sigOps_selectable_lt (node : Node) : (node.selectable.map fun tx => tx.sigOps).sum < 2 ^ 30 := by
  have hEach := sum_sigOps_le node.selectable
  have hWeight := weight_inReach node.ledger node.memPool
  have hBound : maxBlockWeight = 4000000 := rfl
  have hSizes : (node.selectable.map fun tx => tx.getSerializeSize) =
      (node.memPool.inReach node.ledger).map fun entry => entry.2.getSerializeSize := by
    rw [selectable, List.map_map]
    rfl
  rw [hSizes] at hEach
  omega

/-- A spend that could be put into a block does not have the bytes of a coinbase. -/
theorem serialize_ne_coinbase {height nValue : Int} {script : CScript} {witnessRoot : Uint256}
    {tx : NetMessageTransaction} (hFormat : TxFormat tx) (hSpend : tx.isCoinBase = false) :
    tx.serialize false ≠ (coinbaseTransaction height script nValue witnessRoot).serialize false := by
  intro hEq
  have hSize := hFormat.size
  have hLength := tx.length_vin_le
  rw [witnessScaleFactor, maxBlockWeight] at hSize
  have hVin : tx.vin.length ≤ maxSize := by
    rw [maxSize]
    omega
  have hOne : (coinbaseTransaction height script nValue witnessRoot).vin.length ≤ maxSize :=
    show 1 ≤ maxSize by decide
  have hSame := isCoinBase_eq_of_serialize_eq hVin hOne hEq
  cases hSpend.symm.trans (hSame.trans (isCoinBase_coinbaseTransaction ..))

theorem selection_of_stops (node : Node) (hStops : node.memPool.Stops node.ledger) :
    (getNewBlockTxs node.ledger node.memPool).vtx = node.selectable ∧
      (getNewBlockTxs node.ledger node.memPool).nFees = toInt64 (node.ledger.feesOf node.selectable) :=
  ⟨vtx_getNewBlockTxs hStops, nFees_getNewBlockTxs hStops⟩

/-- The block that the transactions in reach make on top of the tip. -/
def blockInReach (node : Node) (tip : BlockIndex) (script : CScript) (time nNonce : UInt32) : Block :=
  minedBlock tip script time ⟨node.memPool, toInt64 (node.ledger.feesOf node.selectable),
    80 + weightOf node.selectable, node.selectable⟩ nNonce

theorem minedBlock_eq_blockInReach (hVtx : selection.vtx = node.selectable)
    (hFees : selection.nFees = toInt64 (node.ledger.feesOf node.selectable)) (script : CScript) (time nNonce : UInt32) :
    minedBlock tip script time selection nNonce = node.blockInReach tip script time nNonce := by
  simp only [blockInReach, minedBlock, templateBlock, hVtx, hFees]

theorem submittable_iff (hTree : node.Tree) (hChildless : node.TipChildless) (hTip : node.tips.getActiveTip = some tip)
    (hStops : node.memPool.Stops node.ledger) (hVtx : selection.vtx = node.selectable)
    (hFees : selection.nFees = toInt64 (node.ledger.feesOf node.selectable)) (script : CScript) (time nNonce : UInt32) :
    Submittable verifyScript node tip selection (minedBlock tip script time selection nNonce) ↔
      PoolFits verifyScript node tip ∧ NoClash node tip (node.blockInReach tip script time nNonce) := by
  rw [← minedBlock_eq_blockInReach hVtx hFees]
  have hSigOps : sigOpsWithin 0 node.selectable ↔
      (node.selectable.map fun tx => tx.sigOps).sum * witnessScaleFactor ≤ maxBlockSigopsCost := by
    have hLt := sum_sigOps_selectable_lt node
    rw [sigOpsWithin_iff (Nat.zero_le _) (by rw [UInt32.toNat_zero]; omega), UInt32.toNat_zero, Nat.zero_add]
  have hReward : toInt64 (selection.nFees + getBlockSubsidy (tip.height + 1)) =
      toInt64 (node.ledger.feesOf node.selectable + getBlockSubsidy (tip.height + 1)) := by
    rw [hFees, Ledger.toInt64_toInt64_add]
  have hHead : (minedBlock tip script time selection nNonce).vtx.head? = some (templateCoinbase tip script selection) := rfl
  constructor
  · rintro ⟨hValid, hSpending, hDistinct, hWithin, hRange, hId, hFresh, hNull, hNoOrphan⟩
    rw [hVtx] at hValid hSpending hDistinct hWithin hId
    rw [hReward] at hRange
    refine ⟨⟨hValid, hSpending, hDistinct, hSigOps.mp hWithin, hRange, hStops⟩, ?_, ?_, hNoOrphan, hNull⟩
    · exact (hTree.fresh_iff hChildless hTip hNull rfl).mp hFresh
    · intro cbtx hCbtx tx hTx hEq
      refine absurd ?_ (hId tx hTx)
      rw [hCbtx, Option.map_some, hEq]
  · rintro ⟨hFits, hApart⟩
    refine ⟨?_, ?_, ?_, ?_, ?_, ?_, ?_, hApart.tipNotNull, hApart.noOrphan⟩
    · rw [hVtx]
      exact hFits.valid
    · rw [hVtx]
      exact hFits.spending
    · rw [hVtx]
      exact hFits.distinct
    · rw [hVtx]
      exact hSigOps.mpr hFits.sigOps
    · rw [hReward]
      exact hFits.reward
    · intro tx hTx hEq
      rw [hVtx] at hTx
      rw [hHead, Option.map_some] at hEq
      exact serialize_ne_coinbase (hFits.valid tx hTx).format (hFits.spending tx hTx)
        (hApart.coinbase _ hHead tx hTx (Option.some.inj hEq).symm)
    · exact (hTree.fresh_iff hChildless hTip hApart.tipNotNull rfl).mpr hApart.stored

end Pool

/-- In every history, a solved template is accepted exactly when the transactions in reach fit together. -/
theorem agrees_iff_poolFits {verifyScript : VerifyScript} {node : Node} (hHistory : History verifyScript node)
    {script : CScript} (hScript : WitnessScript script) {time : UInt32} {memPool : TXMemPool} {template : Block}
    (hCreate : node.createNewBlock script time = .ok (memPool, template)) {tip : BlockIndex}
    (hTip : node.tips.getActiveTip = some tip) (nNonce : UInt32)
    (hWork : checkProofOfWork (Block.getHash { template with nNonce := nNonce }) template.nBits = true)
    (memPool' : TXMemPool) :
    Agrees verifyScript { node with memPool := memPool' } tip { template with nNonce := nNonce } ↔
      PoolFits verifyScript node tip ∧ NoClash node tip (node.blockInReach tip script time nNonce) := by
  have hSound := hHistory.sound
  have hTree : Tree { node with memPool := memPool' } := hSound.tree.congr rfl rfl rfl
  obtain ⟨tip', hTip', -, rfl⟩ := createNewBlock_eq_ok hSound.tree hCreate
  cases hTip.symm.trans hTip'
  obtain ⟨hIds, hFits⟩ := getNewBlockTxs_spec node.ledger hSound.keyed
  have hAgrees := agrees_minedBlock_iff verifyScript hTree hScript hTip hIds hFits time nNonce hWork
  have hSame : Submittable verifyScript { node with memPool := memPool' } tip (getNewBlockTxs node.ledger node.memPool)
      (minedBlock tip script time (getNewBlockTxs node.ledger node.memPool) nNonce) ↔
      Submittable verifyScript node tip (getNewBlockTxs node.ledger node.memPool)
        (minedBlock tip script time (getNewBlockTxs node.ledger node.memPool) nNonce) := by
    constructor <;> exact fun h => ⟨h.1, h.2, h.3, h.4, h.5, h.6, h.7, h.8, h.9⟩
  rw [hSame] at hAgrees
  refine hAgrees.trans ?_
  by_cases hStops : node.memPool.Stops node.ledger
  case pos =>
    obtain ⟨hVtx, hFees⟩ := selection_of_stops node hStops
    exact submittable_iff hSound.tree hHistory.tipChildless hTip hStops hVtx hFees script time nNonce
  case neg =>
    refine iff_of_false ?_ fun hOk => hStops hOk.1.stops
    intro hOk
    obtain ⟨tx, hTx, hLarge⟩ := oversized_of_not_stops hStops
    exact Nat.not_le.mpr hLarge (hOk.valid tx hTx).format.size

/-! Two transactions arrive one after the other; the pool does not compare them. -/

section Two

variable {node : Node} {tip : BlockIndex} {first second : NetMessageTransaction}

theorem selectable_two (node : Node)
    (hList : (poolOf first second).toList = [(first.getHash, first), (second.getHash, second)])
    (hPays : node.ledger.getFees first ≠ 0 ∧ node.ledger.getFees second ≠ 0)
    (hSizes : first.getSerializeSize ≤ 1000 ∧ second.getSerializeSize ≤ 1000) :
    (node.withTwo first second).selectable = [first, second] ∧
      (node.withTwo first second).memPool.Stops (node.withTwo first second).ledger := by
  have hLimit : maxProtocolMessageLength = 4000000 := rfl
  constructor
  · have hReach : (node.withTwo first second).memPool.inReach node.ledger = (poolOf first second).toList :=
      inReach_two (List.Perm.of_eq hList) hPays (by omega)
    rw [selectable]
    change ((node.withTwo first second).memPool.inReach node.ledger).map Prod.snd = _
    rw [hReach, hList]
    rfl
  · apply TXMemPool.SizesOk.stops
    apply AllEntries.insert
    · exact AllEntries.empty.insert (by omega)
    · omega

/-- What the selection makes of them. -/
theorem selection_two (node : Node)
    (hList : (poolOf first second).toList = [(first.getHash, first), (second.getHash, second)]) {fee fee' : Int}
    (hFees : node.ledger.getFees first = fee ∧ node.ledger.getFees second = fee') (hPays : fee ≠ 0 ∧ fee' ≠ 0)
    (hSizes : first.getSerializeSize ≤ 1000 ∧ second.getSerializeSize ≤ 1000) :
    (getNewBlockTxs (node.withTwo first second).ledger (node.withTwo first second).memPool).vtx = [first, second] ∧
      (getNewBlockTxs (node.withTwo first second).ledger (node.withTwo first second).memPool).nFees =
        toInt64 (fee + fee') ∧ (node.withTwo first second).ledger.feesOf [first, second] = fee + fee' := by
  obtain ⟨rfl, rfl⟩ := hFees
  obtain ⟨hSelectable, hStops⟩ := selectable_two node hList hPays hSizes
  obtain ⟨hVtx, hSum⟩ := selection_of_stops _ hStops
  have hFees : (node.withTwo first second).ledger.feesOf [first, second] =
      node.ledger.getFees first + node.ledger.getFees second := by
    rw [Ledger.feesOf, List.map_cons, List.map_singleton, List.sum_cons, List.sum_singleton, withTwo]
  rw [hSelectable] at hVtx hSum
  rw [hFees] at hSum
  exact ⟨hVtx, hSum, hFees⟩

end Two

end Node

/-! The two outputs that are mature after a hundred blocks are spent, or one of them twice. -/

namespace Conflict

def first : NetMessageTransaction := plainSpend Revival.output (49 * coin)

def second : NetMessageTransaction := plainSpend Revival.output (48 * coin)

def other : NetMessageTransaction := Node.genesisSpend

theorem getHash_ne : first.getHash ≠ second.getHash ∧ first.getHash ≠ other.getHash := by decide +kernel

theorem toList_pool : (Node.poolOf first second).toList = [(first.getHash, first), (second.getHash, second)] ∧
    (Node.poolOf first other).toList = [(first.getHash, first), (other.getHash, other)] := by decide +kernel

theorem sizes : first.getSerializeSize ≤ 1000 ∧ second.getSerializeSize ≤ 1000 ∧ other.getSerializeSize ≤ 1000 := by
  decide +kernel

theorem outputs_ne : [Revival.output, ⟨genesisTransaction.getHash, 0⟩].Nodup := by decide +kernel

section Chain

variable {node : Node} {tip : BlockIndex}

theorem exists_paid (hLedger : node.ledger = ledgerOf ([getGenesisBlock] ++ Revival.firstPart)) :
    ∃ hashBlock, node.ledger.txIndex[Revival.paid.getHash]? = some ⟨hashBlock, 1, Revival.paid⟩ := by
  rw [hLedger]
  exact Revival.firstPart_kept.2

theorem genesis_index (hLedger : node.ledger = ledgerOf ([getGenesisBlock] ++ Revival.firstPart)) :
    node.ledger.txIndex[genesisTransaction.getHash]? = some ⟨getGenesisBlock.getHash, 0, genesisTransaction⟩ := by
  rw [hLedger]
  exact GenesisSpend.output_kept.2

theorem allFound (hLedger : node.ledger = ledgerOf ([getGenesisBlock] ++ Revival.firstPart)) :
    (∀ nValue, node.ledger.allInputsFound (plainSpend Revival.output nValue) = true) ∧
      node.ledger.allInputsFound other = true := by
  obtain ⟨hashBlock, hIdx⟩ := exists_paid hLedger
  exact ⟨allInputsFound_plainSpend hIdx, allInputsFound_plainSpend (genesis_index hLedger) _⟩

theorem fees (hLedger : node.ledger = ledgerOf ([getGenesisBlock] ++ Revival.firstPart)) :
    node.ledger.getFees first = 1 * coin ∧ node.ledger.getFees second = 2 * coin ∧
      node.ledger.getFees other = 10 * coin := by
  obtain ⟨hashBlock, hIdx⟩ := exists_paid hLedger
  have hPaid : ∀ nValue : Int, 0 ≤ nValue → nValue < 50 * coin →
      node.ledger.getFees (plainSpend Revival.output nValue) = 50 * coin - nValue := by
    intro nValue hNonneg hLt
    have hOut : Revival.paid.vout[Revival.output.outPutIdx.toNat]? = some ⟨50 * coin, [0x51]⟩ := rfl
    exact @Ledger.getFees_plainSpend node.ledger Revival.output _ ⟨50 * coin, [0x51]⟩ nValue hIdx hOut hNonneg hLt
      (by decide)
  refine ⟨(hPaid _ (by decide) (by decide)).trans (by decide), (hPaid _ (by decide) (by decide)).trans (by decide), ?_⟩
  have hOut : genesisTransaction.vout[0]? = some ⟨50 * coin, _⟩ := rfl
  exact (node.ledger.getFees_plainSpend (genesis_index hLedger) hOut (by decide : 0 ≤ 40 * coin) (by decide)
    (by decide)).trans (by decide)

theorem valid (hLedger : node.ledger = ledgerOf ([getGenesisBlock] ++ Revival.firstPart))
    (hHeight : tip.height = 100) : VtxValid anyScript node.ledger (tip.height + 1) [first, second] ∧
      VtxValid anyScript node.ledger (tip.height + 1) [first, other] := by
  rw [hLedger, hHeight]
  have hOutput : ∀ nValue : Int, 0 ≤ nValue → nValue ≤ 50 * coin → TxOk anyScript
      (ledgerOf ([getGenesisBlock] ++ Revival.firstPart)) (scriptFlagsAt 101) 101 (plainSpend Revival.output nValue) := by
    intro nValue hNonneg hLe
    exact Revival.txOk_spend [getGenesisBlock] _ _ _ rfl hNonneg hLe _
  have hFirst := hOutput (49 * coin) (by decide) (by decide)
  have hSecond := hOutput (48 * coin) (by decide) (by decide)
  have hOther : TxOk anyScript (ledgerOf ([getGenesisBlock] ++ Revival.firstPart)) (scriptFlagsAt 101) 101 other :=
    txOk_plainSpend genesisOutput_ne_null GenesisSpend.output_kept.1 GenesisSpend.output_kept.2 rfl (fun _ => by decide)
      (by decide) (by decide) (by decide)
  exact ⟨List.forall_mem_cons.mpr ⟨hFirst, List.forall_mem_singleton.mpr hSecond⟩,
    List.forall_mem_cons.mpr ⟨hFirst, List.forall_mem_singleton.mpr hOther⟩⟩

end Chain

/-- The template for the hundred and first block, solved. -/
def block (nFees : Int) (vtx : List NetMessageTransaction) : Block :=
  minedBlock (BlockIndex.make 100 Revival.tipHash Uint256.null) Node.minerAddress 1296688603
    ⟨TXMemPool.empty, nFees, 0, vtx⟩ 0

/-- With both outputs spent. -/
def joint : Block := block (toInt64 (1 * coin + 10 * coin)) [first, other]

theorem minedBlock_eq {tip : BlockIndex} (hHeight : tip.height = 100) (hHash : tip.hash = Revival.tipHash)
    {selection : Selection} {nFees : Int} {vtx : List NetMessageTransaction} (hVtx : selection.vtx = vtx)
    (hFees : selection.nFees = nFees) :
    minedBlock tip Node.minerAddress 1296688603 selection 0 = block nFees vtx := by
  simp only [block, minedBlock, templateBlock, hHeight, hHash, hVtx, hFees, BlockIndex.make]

theorem work : checkProofOfWork (block (toInt64 (1 * coin + 2 * coin)) [first, second]).getHash proofOfWorkLimit = true ∧
    checkProofOfWork joint.getHash proofOfWorkLimit = true := by decide +kernel

theorem not_nodup : ¬ ([first, second].flatMap NetMessageTransaction.prevOuts).Nodup := by
  intro hNodup
  exact (List.nodup_cons.mp hNodup).1 List.mem_cons_self

/-- The block with both outputs is new, and its coinbase too. -/
theorem fresh : joint.getHash ∉ ([getGenesisBlock] ++ Revival.firstPart).map Block.getHash := by
  have hStretch : stretchOk joint.getHash Revival.tipHash [joint] [43030] = true := by decide +kernel
  have hHeaders : headersOk params.hashGenesisBlock [params.hashGenesisBlock] (Revival.firstPart ++ [joint]) = true :=
    headersOk_of_stretchOk (stretchOk_append Revival.firstStretch.ok hStretch) (by decide +kernel) (by decide +kernel)
  exact (headerOk_of_genesis hHeaders Revival.firstPart [] rfl).fresh

theorem coinbase_ne : ∀ cbtx, joint.vtx.head? = some cbtx →
    ∀ tx ∈ [first, other], tx.getHash ≠ cbtx.getHash := by
  intro cbtx hHead
  cases hHead
  decide +kernel

theorem noClash {start : Node} {tip : BlockIndex} (hHistory : Node.History anyScript (start.withTwo first other))
    (hHolds : start.Holds ([getGenesisBlock] ++ Revival.firstPart)) (hTip : start.tips.getActiveTip = some tip)
    (hHash : tip.hash = Revival.tipHash) (hSelectable : (start.withTwo first other).selectable = [first, other]) :
    (start.withTwo first other).NoClash tip joint := by
  have hNull : tip.hash ≠ Uint256.null := by
    rw [hHash]
    decide +kernel
  refine ⟨(hHistory.sound.tree.fresh_iff hHistory.tipChildless hTip hNull hHash.symm).mp ?_, ?_, ?_, hNull⟩
  · cases hEntry : start.entry joint.getHash with
    | none => exact hEntry
    | some index =>
      have hMem := hHolds.indexed _ index hEntry
      rw [hHolds.blocks] at hMem
      exact absurd hMem fresh
  · intro cbtx hHead tx hTx hEq
    rw [hSelectable] at hTx
    exact absurd hEq (coinbase_ne cbtx hHead tx hTx)
  · change start.waiting joint.getHash = false
    rw [Node.waiting, hHolds.noOrphans, List.any_nil]

end Conflict

namespace Node

/-- Spends of two outputs, whose template is accepted. -/
theorem agrees_iff_poolFits_other : ∃ (node : Node) (tip : BlockIndex) (memPool : TXMemPool) (template : Block),
    History anyScript node ∧ node.tips.getActiveTip = some tip ∧
      node.createNewBlock minerAddress 1296688603 = .ok (memPool, template) ∧
      template.vtx.tail = [Conflict.first, Conflict.other] ∧
      Agrees anyScript { node with memPool := memPool } tip { template with nNonce := 0 } := by
  obtain ⟨start, tip, hRun, hHolds, hLedger, hTip, hHeight, hHash⟩ := Revival.exists_firstPart
  have hTree : start.Tree := Run.tree hRun
  obtain ⟨hFirst, -, hOther⟩ := Conflict.fees hLedger
  obtain ⟨-, hValid⟩ := Conflict.valid hLedger hHeight
  have hHistory := hRun.history.acceptTwo (Run.poolEmpty hRun) hTip Conflict.getHash_ne.2
    ⟨(Conflict.allFound hLedger).1 _, (Conflict.allFound hLedger).2⟩ hValid
  have hSizes : Conflict.first.getSerializeSize ≤ 1000 ∧ Conflict.other.getSerializeSize ≤ 1000 :=
    ⟨Conflict.sizes.1, Conflict.sizes.2.2⟩
  have hPays : 1 * coin ≠ 0 ∧ 10 * coin ≠ 0 := by decide
  obtain ⟨hSelectable, hStops⟩ := selectable_two start Conflict.toList_pool.2
    ⟨hFirst ▸ hPays.1, hOther ▸ hPays.2⟩ hSizes
  obtain ⟨hVtx, hSum, hFees⟩ := selection_two start Conflict.toList_pool.2 ⟨hFirst, hOther⟩ hPays hSizes
  have hCreate := createNewBlock_ok hHistory.sound.tree hTip minerAddress 1296688603
  have hBlock : minedBlock tip minerAddress 1296688603 _ 0 = Conflict.joint :=
    Conflict.minedBlock_eq hHeight hHash hVtx hSum
  have hWork := Conflict.work.2
  rw [← hBlock] at hWork
  refine ⟨_, tip, _, _, hHistory, hTip, hCreate, hVtx, (agrees_iff_poolFits hHistory minerAddress_witness hCreate hTip 0
    hWork _).mpr ⟨?_, ?_⟩⟩
  · refine ⟨?_, ?_, ?_, ?_, ?_, hStops⟩ <;> rw [hSelectable]
    · exact hValid
    · exact List.forall_mem_cons.mpr ⟨isCoinBase_plainSpend Revival.paid_ne.2.2 _,
        List.forall_mem_singleton.mpr (isCoinBase_plainSpend genesisOutput_ne_null _)⟩
    · exact Conflict.outputs_ne
    · decide +kernel
    · rw [hFees, hHeight]
      decide
  · obtain ⟨hVtx', hSum'⟩ := selection_of_stops _ hStops
    rw [← minedBlock_eq_blockInReach hVtx' hSum', hBlock]
    exact Conflict.noClash hHistory hHolds hTip hHash hSelectable

/-- The node solves its own template and refuses it. -/
theorem exists_template_refused : ∃ (verifyScript : VerifyScript) (node : Node) (script : CScript) (time nNonce : UInt32)
    (memPool : TXMemPool) (template : Block), History verifyScript node ∧ WitnessScript script ∧
      node.createNewBlock script time = .ok (memPool, template) ∧
      checkProofOfWork (Block.getHash { template with nNonce := nNonce }) template.nBits = true ∧
      (acceptBlock verifyScript { node with memPool := memPool } { template with nNonce := nNonce }).result = .ok false := by
  obtain ⟨start, tip, hRun, -, hLedger, hTip, hHeight, hHash⟩ := Revival.exists_firstPart
  obtain ⟨hFirst, hSecond, -⟩ := Conflict.fees hLedger
  have hHistory := hRun.history.acceptTwo (Run.poolEmpty hRun) hTip Conflict.getHash_ne.1
    ⟨(Conflict.allFound hLedger).1 _, (Conflict.allFound hLedger).1 _⟩ (Conflict.valid hLedger hHeight).1
  obtain ⟨hVtx, hSum, -⟩ := selection_two start Conflict.toList_pool.1 ⟨hFirst, hSecond⟩ (by decide)
    ⟨Conflict.sizes.1, Conflict.sizes.2.1⟩
  have hTree := hHistory.sound.tree
  have hCreate := createNewBlock_ok hTree hTip minerAddress 1296688603
  have hWork := Conflict.work.1
  rw [← Conflict.minedBlock_eq hHeight hHash hVtx hSum] at hWork
  refine ⟨anyScript, _, minerAddress, 1296688603, 0, _, _, hHistory, minerAddress_witness, hCreate, hWork, ?_⟩
  refine Tree.refused_onTop (hTree.congr rfl rfl rfl) hTip rfl ?_
  rintro ⟨hOk, -⟩
  have hContents := (checkBlockContents_iff _).mp ((blockOk_iff _).mp hOk).1
  have hNodup : ((templateCoinbase tip minerAddress (getNewBlockTxs (start.withTwo Conflict.first Conflict.second).ledger
      (start.withTwo Conflict.first Conflict.second).memPool) ::
        (getNewBlockTxs (start.withTwo Conflict.first Conflict.second).ledger
          (start.withTwo Conflict.first Conflict.second).memPool).vtx).flatMap NetMessageTransaction.prevOuts).Nodup :=
    hContents.vtx.prevOutsNodup
  rw [hVtx, List.flatMap_cons, List.nodup_append] at hNodup
  exact Conflict.not_nodup hNodup.2.1

end Node

end BitcoinGpuMiner
