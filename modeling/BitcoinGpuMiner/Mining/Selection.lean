import BitcoinGpuMiner.Chain.SigOpCount
import BitcoinGpuMiner.Ledger.PlainChain
import BitcoinGpuMiner.Mining.Reach

/-! # What a template takes from the pool

The entries in reach go from `_pool` to `_miningPool`, and the coinbase collects their fees; the sums are of 64 bits, and
nothing compares them with the range of an amount.
-/

namespace BitcoinGpuMiner

open Foundation

set_option autoImplicit false

/-- One call of `GetNewBlockTxs` that has moved the given entries and nothing else, with their fees and within the
weight. -/
structure SelectsRight (ledger : Ledger) (memPool : TXMemPool) (taken : List (Uint256 × NetMessageTransaction))
    (selection : Selection) : Prop where
  vtx : selection.vtx = taken.map Prod.snd
  once : (taken.map Prod.fst).Nodup
  pool : ∀ (hash : Uint256) (tx : NetMessageTransaction), memPool.pool[hash]? = some tx ↔
    selection.memPool.pool[hash]? = some tx ∨ (hash, tx) ∈ taken
  disjoint : ∀ entry ∈ taken, selection.memPool.pool[entry.1]? = none
  miningPool : ∀ (hash : Uint256) (tx : NetMessageTransaction),
    selection.memPool.miningPool[hash]? = some tx ↔ (hash, tx) ∈ taken
  paying : ∀ entry ∈ taken, 0 < ledger.getFees entry.2
  nFees : selection.nFees = ledger.feesOf (taken.map Prod.snd)
  weight : 80 + 4 * (taken.map fun entry => entry.2.getSerializeSize).sum ≤ maxBlockWeight - 4000

section Reach

variable {ledger : Ledger} {memPool : TXMemPool}

/-- Everything is right with the entries in reach, as long as the sum of the fees is. -/
theorem selectsRight_inReach (hSizes : memPool.SizesOk)
    (hFees : ledger.feesOf ((memPool.inReach ledger).map Prod.snd) < 2 ^ 63) :
    SelectsRight ledger memPool (memPool.inReach ledger) (getNewBlockTxs ledger memPool) where
  vtx := vtx_getNewBlockTxs (hSizes.stops ledger)
  once := nodup_inReach ledger memPool
  pool := by
    intro hash tx
    rw [pool_getNewBlockTxs ledger hSizes]
    by_cases hTaken : hash ∈ (memPool.inReach ledger).map Prod.fst
    · rw [if_pos hTaken]
      obtain ⟨entry, hMem, rfl⟩ := List.mem_map.mp hTaken
      have hGet := lookup_of_mem_inReach hMem
      constructor
      · intro hOld
        rw [hGet] at hOld
        cases hOld
        exact .inr hMem
      · rintro (hNone | hMem)
        · cases hNone
        · exact lookup_of_mem_inReach hMem
    · rw [if_neg hTaken]
      constructor
      · exact .inl
      · rintro (hOld | hMem)
        · exact hOld
        · exact absurd (List.mem_map_of_mem hMem) hTaken
  disjoint := by
    intro entry hMem
    rw [pool_getNewBlockTxs ledger hSizes, if_pos (List.mem_map_of_mem hMem)]
  miningPool := miningPool_getNewBlockTxs ledger hSizes
  paying := fun _ hMem => getFees_pos_of_mem_inReach hMem
  nFees := by
    rw [nFees_getNewBlockTxs (hSizes.stops ledger)]
    exact (Ledger.toInt64_eq_self_iff (ledger.feesOf_nonneg _)).mpr hFees
  weight := weight_inReach ledger memPool

theorem exists_selectsRight_iff (hSizes : memPool.SizesOk) :
    (∃ taken, SelectsRight ledger memPool taken (getNewBlockTxs ledger memPool)) ↔
      ledger.feesOf ((memPool.inReach ledger).map Prod.snd) < 2 ^ 63 := by
  constructor
  · rintro ⟨taken, hRight⟩
    have hFees := hRight.nFees
    rw [← hRight.vtx, vtx_getNewBlockTxs (hSizes.stops ledger), nFees_getNewBlockTxs (hSizes.stops ledger)] at hFees
    exact (Ledger.toInt64_eq_self_iff (ledger.feesOf_nonneg _)).mp hFees
  · intro hFees
    exact ⟨_, selectsRight_inReach hSizes hFees⟩

end Reach

/-- A block whose coinbase collects the subsidy of its height and the fees of the other transactions, and that is not
too large unless its coinbase is. -/
def BuildsRight (ledger : Ledger) (height : Int) (block : Block) : Prop :=
  ∃ (cbtx : NetMessageTransaction) (txs : List NetMessageTransaction), block.vtx = cbtx :: txs ∧
    cbtx.vout.head?.map TxOut.nValue = some (getBlockSubsidy height + ledger.feesOf txs) ∧
    (cbtx.getSerializeSize ≤ 800 → block.SizeOk)

section Building

variable {ledger : Ledger} {memPool : TXMemPool}

theorem getBlockSubsidy_nonneg (nHeight : Int) : 0 ≤ getBlockSubsidy nHeight := by
  rw [getBlockSubsidy]
  split
  case isTrue => exact Int.le_refl 0
  case isFalse =>
    rw [Int.shiftRight_eq_div_pow]
    exact Int.ediv_nonneg (by decide) (Int.natCast_nonneg _)

/-- The header, the number of transactions and a coinbase of 800 bytes fit into what the selection has left. -/
theorem sizeOk_of_cons {block : Block} {cbtx : NetMessageTransaction} {taken : List (Uint256 × NetMessageTransaction)}
    (hVtx : block.vtx = cbtx :: taken.map Prod.snd)
    (hWeight : 80 + 4 * (taken.map fun entry => entry.2.getSerializeSize).sum ≤ maxBlockWeight - 4000)
    (hCoinbase : cbtx.getSerializeSize ≤ 800) : block.SizeOk := by
  have hBound : maxBlockWeight = 4000000 := rfl
  have hFactor : witnessScaleFactor = 4 := rfl
  have hCountSize := length_writeCompactSize_le block.vtx.length
  have hCount := length_le_weightOf (taken.map Prod.snd)
  rw [weightOf_eq, List.map_map, Function.comp_def, List.length_map, hFactor] at hCount
  have hSize : block.getSerializeSize = 80 + ((writeCompactSize block.vtx.length).length +
      (cbtx.getSerializeSize + (taken.map fun entry => entry.2.getSerializeSize).sum)) := by
    rw [Block.getSerializeSize, Block.serialize, List.length_append, BlockHeader.length_serialize, length_writeVector,
      hVtx, List.map_cons, List.sum_cons, List.map_map]
    rfl
  have hLength : block.vtx.length = taken.length + 1 := by rw [hVtx, List.length_cons, List.length_map]
  rw [Block.SizeOk, hVtx, List.isEmpty_cons, Bool.false_or, ← hVtx, Bool.or_eq_false_iff, decide_eq_false_iff_not,
    decide_eq_false_iff_not, hFactor]
  omega

theorem exists_coinbase (tip : BlockIndex) (scriptPubKeyIn : CScript) (time : UInt32) (selection : Selection) :
    ∃ cbtx, (templateBlock tip scriptPubKeyIn time selection).vtx = cbtx :: selection.vtx ∧
      cbtx.vout.head?.map TxOut.nValue = some (toInt64 (selection.nFees + getBlockSubsidy (tip.height + 1))) :=
  ⟨_, rfl, rfl⟩

theorem buildsRight_iff (hSizes : memPool.SizesOk) {tip : BlockIndex} {scriptPubKeyIn : CScript} {time : UInt32}
    {block : Block} (hBlock : block.vtx = (templateBlock tip scriptPubKeyIn time (getNewBlockTxs ledger memPool)).vtx) :
    BuildsRight ledger (tip.height + 1) block ↔
      ledger.feesOf ((memPool.inReach ledger).map Prod.snd) + getBlockSubsidy (tip.height + 1) < 2 ^ 63 := by
  obtain ⟨cbtx, hVtx, hValue⟩ := exists_coinbase tip scriptPubKeyIn time (getNewBlockTxs ledger memPool)
  rw [hVtx, vtx_getNewBlockTxs (hSizes.stops ledger)] at hBlock
  rw [nFees_getNewBlockTxs (hSizes.stops ledger), Ledger.toInt64_toInt64_add] at hValue
  have hNonneg := Int.add_nonneg (ledger.feesOf_nonneg ((memPool.inReach ledger).map Prod.snd))
    (getBlockSubsidy_nonneg (tip.height + 1))
  rw [← Ledger.toInt64_eq_self_iff hNonneg]
  constructor
  · rintro ⟨other, txs, hOther, hSum, -⟩
    rw [hBlock] at hOther
    cases hOther
    rw [hValue] at hSum
    exact (Option.some.inj hSum).trans (Int.add_comm _ _)
  · intro hExact
    refine ⟨cbtx, _, hBlock, ?_, sizeOk_of_cons hBlock (weight_inReach ledger memPool)⟩
    rw [hValue, hExact, Int.add_comm]

/-- Whatever work the template is given, it has the transactions of one selection. -/
theorem vtx_createNewBlock {node : Node} {scriptPubKeyIn : CScript} {time : UInt32} {block : Block}
    (hCreate : node.createNewBlock scriptPubKeyIn time = .ok (memPool, block)) :
    ∃ tip, node.tips.getActiveTip = some tip ∧ memPool = (getNewBlockTxs node.ledger node.memPool).memPool ∧
      block.vtx = (templateBlock tip scriptPubKeyIn time (getNewBlockTxs node.ledger node.memPool)).vtx := by
  rw [Node.createNewBlock] at hCreate
  cases hTip : node.tips.getActiveTip with
  | none =>
    rw [hTip] at hCreate
    cases hCreate
  | some tip =>
    rw [hTip] at hCreate
    dsimp only at hCreate
    cases hWork : node.getNextWorkRequired tip (node.getBlock tip.hash)
        (templateBlock tip scriptPubKeyIn time (getNewBlockTxs node.ledger node.memPool)) with
    | error fault =>
      rw [hWork] at hCreate
      cases hCreate
    | ok nBits =>
      rw [hWork] at hCreate
      cases hCreate
      exact ⟨tip, rfl, rfl, rfl⟩

end Building

namespace Node

/-- The selection is right exactly when the fees in reach are an amount of 64 bits, and so is the template when they are
one together with the subsidy. -/
theorem template_right_iff (node : Node) (hSizes : node.memPool.SizesOk) :
    ((∃ taken, SelectsRight node.ledger node.memPool taken (getNewBlockTxs node.ledger node.memPool)) ↔
      node.ledger.feesOf ((node.memPool.inReach node.ledger).map Prod.snd) < 2 ^ 63) ∧
    ∀ (scriptPubKeyIn : CScript) (time : UInt32) (memPool : TXMemPool) (block : Block),
      node.createNewBlock scriptPubKeyIn time = .ok (memPool, block) →
      ∃ tip, node.tips.getActiveTip = some tip ∧ memPool = (getNewBlockTxs node.ledger node.memPool).memPool ∧
        (BuildsRight node.ledger (tip.height + 1) block ↔
          node.ledger.feesOf ((node.memPool.inReach node.ledger).map Prod.snd) + getBlockSubsidy (tip.height + 1) <
            2 ^ 63) := by
  refine ⟨exists_selectsRight_iff hSizes, ?_⟩
  intro scriptPubKeyIn time memPool block hCreate
  obtain ⟨tip, hTip, hMemPool, hVtx⟩ := vtx_createNewBlock hCreate
  exact ⟨tip, hTip, hMemPool, buildsRight_iff hSizes hVtx⟩

/-- A transaction that spends the output of the genesis block, and leaves ten coins. -/
def genesisSpend : NetMessageTransaction := plainSpend ⟨genesisTransaction.getHash, 0⟩ (40 * coin)

def withGenesisSpend : Node :=
  { initial with memPool := ⟨(∅ : HashMap NetMessageTransaction).insert genesisSpend.getHash genesisSpend, ∅, ∅⟩ }

theorem withGenesisSpend_sizesOk : withGenesisSpend.memPool.SizesOk :=
  AllEntries.empty.insert (show genesisSpend.getSerializeSize ≤ maxProtocolMessageLength by decide +kernel)

theorem template_right_iff_genesisSpend :
    (∃ taken, SelectsRight withGenesisSpend.ledger withGenesisSpend.memPool taken
      (getNewBlockTxs withGenesisSpend.ledger withGenesisSpend.memPool)) ∧
    ∃ (memPool : TXMemPool) (block : Block), withGenesisSpend.createNewBlock minerAddress 1296688603 =
      .ok (memPool, block) ∧ BuildsRight withGenesisSpend.ledger 1 block := by
  have hFees : withGenesisSpend.ledger.feesOf
      ((withGenesisSpend.memPool.inReach withGenesisSpend.ledger).map Prod.snd) = 10 * coin := by decide +kernel
  have hTree : withGenesisSpend.Tree := initial_tree.congr rfl rfl rfl
  have hTip : withGenesisSpend.tips.getActiveTip = some genesisIndex := initial_activeTip
  have hCreate := createNewBlock_ok hTree hTip minerAddress 1296688603
  obtain ⟨hSelect, hBuild⟩ := template_right_iff withGenesisSpend withGenesisSpend_sizesOk
  obtain ⟨tip, hTip', -, hRight⟩ := hBuild _ _ _ _ hCreate
  cases hTip.symm.trans hTip'
  rw [hFees] at hSelect hRight
  exact ⟨hSelect.mpr (by decide), _, _, hCreate, hRight.mpr (by decide)⟩

end Node

/-! Two transactions whose fees together do not fit into 64 bits. They arrive before the outputs they spend, so
nobody looks at them, and they spend each output many times. -/

namespace FeeOverflow

/-- A coinbase that pays everything there can be, and more than the subsidy. -/
def paying (tag : UInt8) : NetMessageTransaction := plainCoinbase [tag, 0] maxMoney

/-- It spends two outputs many times. -/
def repeated (first second : NetMessageTransaction) (count : Nat) : NetMessageTransaction where
  vin := List.replicate count ⟨⟨first.getHash, 0⟩, [], 0xffffffff, []⟩ ++
    List.replicate count ⟨⟨second.getHash, 0⟩, [], 0xffffffff, []⟩
  vout := [⟨0, [0x51]⟩]
  nVersion := 1
  nLockTime := 0

section Repeated

variable {ledger : Ledger} {first second : NetMessageTransaction} {idx idx' : TxIdx} {script script' : CScript}

theorem getFees_repeated (hFirst : ledger.txIndex[first.getHash]? = some idx) (hOut : idx.tx.vout = [⟨maxMoney, script⟩])
    (hSecond : ledger.txIndex[second.getHash]? = some idx') (hOut' : idx'.tx.vout = [⟨maxMoney, script'⟩]) {count : Nat}
    (hPos : 0 < count * maxMoney) (hFits : count * maxMoney + count * maxMoney < 2 ^ 63) :
    ledger.getFees (repeated first second count) = count * maxMoney + count * maxMoney := by
  have hMoney : 0 ≤ maxMoney := by decide
  have hSum : ledger.sumInputs (repeated first second count).vin 0 = some (count * maxMoney + count * maxMoney) := by
    rw [repeated, ledger.sumInputs_replicate ⟨first.getHash, 0⟩ ⟨maxMoney, script⟩ hFirst (by rw [hOut]; rfl) hMoney _ count
      0 (Int.le_refl 0) (by dsimp only; omega), Int.zero_add, ← List.append_nil (List.replicate _ _),
      ledger.sumInputs_replicate ⟨second.getHash, 0⟩ ⟨maxMoney, script'⟩ hSecond (by rw [hOut']; rfl) hMoney [] count
        _ (Int.le_of_lt hPos) hFits, Ledger.sumInputs]
  have hValueOut : (repeated first second count).getValueOut = 0 := by
    rw [NetMessageTransaction.getValueOut, repeated]
    rfl
  have hExact : toInt64 (count * maxMoney + count * maxMoney - 0) = count * maxMoney + count * maxMoney := by
    rw [Int.sub_zero, Ledger.toInt64_eq_self_iff (by omega)]
    exact hFits
  rw [Ledger.getFees, hSum]
  dsimp only
  rw [hValueOut, hExact, if_pos (by omega)]

theorem getSerializeSize_repeated_le (first second : NetMessageTransaction) (count : Nat) :
    (repeated first second count).getSerializeSize ≤ 116 * count + 100 := by
  have hNone := length_writeCompactSize_le 0
  have hInput : ∀ pt : OutPoint, count * (TxIn.serialize ⟨pt, [], 0xffffffff, []⟩).length ≤ count * 49 := by
    intro pt
    apply Nat.mul_le_mul_left
    rw [TxIn.serialize, List.length_append, List.length_append, OutPoint.serialize, List.length_append,
      Uint256.length_bytes, length_writeLE, length_writeLE, length_writeBytes, List.length_nil]
    omega
  have hVin : (writeVector TxIn.serialize (repeated first second count).vin).length ≤ 9 + 98 * count := by
    have hCount := length_writeCompactSize_le (repeated first second count).vin.length
    have hFirst := hInput ⟨first.getHash, 0⟩
    have hSecond := hInput ⟨second.getHash, 0⟩
    rw [length_writeVector, repeated, List.map_append, List.sum_append, List.map_replicate, List.map_replicate,
      List.sum_replicate_nat, List.sum_replicate_nat]
    rw [repeated] at hCount
    omega
  have hVout : (writeVector TxOut.serialize (repeated first second count).vout).length ≤ 27 :=
    show (writeVector TxOut.serialize [⟨0, [0x51]⟩]).length ≤ 27 by decide
  have hWitness : ((repeated first second count).vin.flatMap fun txIn =>
      writeVector writeBytes txIn.scriptWitness).length ≤ 18 * count := by
    have hEach : count * (writeVector writeBytes []).length ≤ count * 9 := by
      apply Nat.mul_le_mul_left
      rw [length_writeVector]
      exact hNone
    rw [List.length_flatMap, repeated, List.map_append, List.sum_append, List.map_replicate, List.map_replicate,
      List.sum_replicate_nat]
    dsimp only
    omega
  have hSize := NetMessageTransaction.getSerializeSize_le (repeated first second count)
  omega

theorem allInputsFound_repeated (hMissing : ledger.txIndex[first.getHash]? = none ∨ ledger.txIndex[second.getHash]? = none)
    {count : Nat} (hPos : 0 < count) : ledger.allInputsFound (repeated first second count) = false := by
  rw [Ledger.allInputsFound, List.all_eq_false]
  rcases hMissing with hNone | hNone
  · refine ⟨_, List.mem_append_left _ (List.mem_replicate.mpr ⟨Nat.ne_of_gt hPos, rfl⟩), ?_⟩
    rw [contains_eq_isSome, hNone]
    simp
  · refine ⟨_, List.mem_append_right _ (List.mem_replicate.mpr ⟨Nat.ne_of_gt hPos, rfl⟩), ?_⟩
    rw [contains_eq_isSome, hNone]
    simp

end Repeated

/-- Two blocks on the genesis block, with these coinbases. -/
structure Blocks (lower upper : NetMessageTransaction) where
  below : Block
  above : Block
  below_vtx : below.vtx = [lower]
  above_vtx : above.vtx = [upper]
  valid : ValidChain anyScript BlockRule.any ([getGenesisBlock] ++ [below])
  follows : Follows anyScript ([getGenesisBlock] ++ [below]) above

section Arrival

variable {lower upper first second : NetMessageTransaction}

theorem Blocks.lookup_upper (blocks : Blocks lower upper)
    (hNe : genesisTransaction.getHash ≠ upper.getHash ∧ lower.getHash ≠ upper.getHash) :
    (ledgerOf ([getGenesisBlock] ++ [blocks.below])).txIndex[upper.getHash]? = none := by
  rw [ledgerOf, Ledger.replay_txIndex, Ledger.lastTx, List.find?_eq_none]
  intro idx hMem
  rw [decide_eq_true_iff]
  obtain ⟨height, made, hGet, hTx, -⟩ := exists_block_of_mem (List.mem_reverse.mp hMem)
  rcases List.mem_append.mp (List.mem_of_getElem? hGet) with hGenesis | hBelow
  · rw [List.mem_singleton.mp hGenesis] at hTx
    rw [List.mem_singleton.mp hTx]
    exact hNe.1
  · rw [List.mem_singleton.mp hBelow, blocks.below_vtx] at hTx
    rw [List.mem_singleton.mp hTx]
    exact hNe.2

theorem lookup_remove_two (hNe : first.getHash ≠ second.getHash)
    (hOther : upper.getHash ≠ first.getHash ∧ upper.getHash ≠ second.getHash) (hash : Uint256)
    (tx : NetMessageTransaction) :
    (TXMemPool.remove ⟨Node.poolOf first second, ∅, ∅⟩ upper.getHash).pool[hash]? = some tx ↔
      (hash, tx) = (first.getHash, first) ∨ (hash, tx) = (second.getHash, second) := by
  rw [← Node.lookup_poolOf hNe, TXMemPool.remove, lookup_erase]
  split
  case isFalse => exact Iff.rfl
  case isTrue hEq =>
    refine iff_of_false (by simp) ?_
    rw [← hEq, Node.lookup_poolOf hNe]
    simp only [Prod.mk.injEq, hOther.1, hOther.2, false_and, or_self, not_false_eq_true]

/-- Two transactions that wait for the second coinbase are still in the pool when it comes. -/
theorem Blocks.arrival (blocks : Blocks lower upper)
    (hCoinbases : genesisTransaction.getHash ≠ upper.getHash ∧ lower.getHash ≠ upper.getHash)
    (hNe : first.getHash ≠ second.getHash) (hOther : upper.getHash ≠ first.getHash ∧ upper.getHash ≠ second.getHash)
    (hMissing : ∀ ledger : Ledger, ledger.txIndex[upper.getHash]? = none →
      ledger.allInputsFound first = false ∧ ledger.allInputsFound second = false) :
    ∃ node : Node, Node.History anyScript node ∧
      node.ledger = ledgerOf ([getGenesisBlock] ++ [blocks.below] ++ [blocks.above]) ∧
      ∀ (hash : Uint256) (tx : NetMessageTransaction), node.memPool.pool[hash]? = some tx ↔
        (hash, tx) = (first.getHash, first) ∨ (hash, tx) = (second.getHash, second) := by
  obtain ⟨start, hRun, hHolds⟩ := Node.exists_tipRun blocks.valid
  have hLedger : start.ledger = ledgerOf ([getGenesisBlock] ++ [blocks.below]) := hHolds.blocks ▸ hRun.refines.ledger
  have hHistory := hRun.history.orphanTwo (Node.Run.poolEmpty hRun) hNe
    (hMissing _ (by rw [hLedger]; exact blocks.lookup_upper hCoinbases))
  have hWaiting : (start.withTwo first second).Holds ([getGenesisBlock] ++ [blocks.below]) := hHolds.withPool _
  obtain ⟨prev, active, memPool, -, -, hHeight, -, hPool, hAccept⟩ :=
    hWaiting.extended hHistory.sound.tree hLedger blocks.follows
  refine ⟨_, hHistory.tail (.acceptBlock blocks.above hAccept), ?_, ?_⟩
  · rw [ledgerOf_append_singleton, ← hLedger, ← hHeight]
    rfl
  · have hAfter : ((start.withTwo first second).extend blocks.above prev).memPool =
        (⟨Node.poolOf first second, ∅, ∅⟩ : TXMemPool).remove upper.getHash := by
      change blocks.above.vtx.foldl (fun (memPool : TXMemPool) tx => memPool.remove tx.getHash) _ = _
      rw [blocks.above_vtx]
      rfl
    have hIdle : ((start.withTwo first second).extend blocks.above prev).memPool.miningPool = ∅ := by
      rw [hAfter, TXMemPool.remove]
      simp
    rw [Node.procOrphanTx_idle hIdle, hAfter] at hPool
    cases hPool
    exact lookup_remove_two hNe hOther

theorem Blocks.lookup_both (blocks : Blocks lower upper) (hNe : lower.getHash ≠ upper.getHash)
    (hSpends : upper.spends = []) (hOut : lower.vout ≠ [] ∧ upper.vout ≠ [])
    (hNull : (⟨lower.getHash, 0⟩ : OutPoint) ≠ OutPoint.null ∧ (⟨upper.getHash, 0⟩ : OutPoint) ≠ OutPoint.null) :
    let ledger := ledgerOf ([getGenesisBlock] ++ [blocks.below] ++ [blocks.above])
    ledger.txIndex[lower.getHash]? = some ⟨blocks.below.getHash, 1, lower⟩ ∧
      ledger.txIndex[upper.getHash]? = some ⟨blocks.above.getHash, 2, upper⟩ := by
  constructor
  · refine (coinbase_kept [getGenesisBlock] blocks.below_vtx hOut.1 ?_ hNull.1).2
    intro later hLater tx hTx
    rw [List.mem_singleton.mp hLater, blocks.above_vtx] at hTx
    rw [List.mem_singleton.mp hTx, hSpends]
    exact ⟨hNe.symm, List.not_mem_nil⟩
  · have hKept := coinbase_kept ([getGenesisBlock] ++ [blocks.below]) blocks.above_vtx hOut.2
      (fun later hLater => absurd hLater List.not_mem_nil) hNull.2
    rw [List.append_nil] at hKept
    exact hKept.2

end Arrival

section Overflow

variable {tag tag' : UInt8}

def block (hashPrevBlock : Uint256) (tag : UInt8) (nNonce : UInt32) : Block :=
  blockOn hashPrevBlock [paying tag] 1296688603 nNonce

theorem contents_block (hashPrevBlock : Uint256) (nNonce : UInt32)
    (hContents : checkBlockContents (blockOn Uint256.null [paying tag] 0 0) = true) :
    checkBlockContents (block hashPrevBlock tag nNonce) = true := by
  rw [block, checkBlockContents_blockOn]
  exact hContents

/-- The blocks are accepted although their coinbases pay too much. -/
def blocksOf (below above : Block) {nNonce nNonce' : UInt32} (hBelow : below = block params.hashGenesisBlock tag nNonce)
    (hAbove : above = block below.getHash tag' nNonce')
    (hHeaders : headersOk params.hashGenesisBlock [params.hashGenesisBlock] [below, above] = true)
    (hContents : checkBlockContents (blockOn Uint256.null [paying tag] 0 0) = true ∧
      checkBlockContents (blockOn Uint256.null [paying tag'] 0 0) = true) : Blocks (paying tag) (paying tag') where
  below := below
  above := above
  below_vtx := by rw [hBelow, block, blockOn]
  above_vtx := by rw [hAbove, block, blockOn]
  valid := by
    refine ValidChain.genesis.extend ((headerOk_of_genesis hHeaders [] [above] rfl).follows ?_ ?_) trivial
    · rw [hBelow]
      exact contents_block _ _ hContents.1
    · rw [hBelow]
      exact vtxValid_coinbase (txFormat_plainCoinbase (by simp) (by simp) (by decide)) rfl _ _
  follows := by
    refine (headerOk_of_genesis hHeaders [below] [] rfl).follows ?_ ?_
    · rw [hAbove]
      exact contents_block _ _ hContents.2
    · rw [hAbove]
      exact vtxValid_coinbase (txFormat_plainCoinbase (by simp) (by simp) (by decide)) rfl _ _

/-- A spend of the coinbase that comes last, which leaves almost everything. -/
def remainder (tag : UInt8) (nValue : Int) : NetMessageTransaction := plainSpend ⟨(paying tag).getHash, 0⟩ nValue

/-- The hashes that have to be different, apart from that of the large transaction. -/
def Apart (tag tag' : UInt8) : Prop :=
  genesisTransaction.getHash ≠ (paying tag').getHash ∧ (paying tag).getHash ≠ (paying tag').getHash ∧
    (paying tag).getHash ≠ Uint256.null ∧ (paying tag').getHash ≠ Uint256.null ∧
    (remainder tag' 0).getHash ≠ (remainder tag' 1).getHash ∧ (paying tag').getHash ≠ (remainder tag' 0).getHash ∧
    (paying tag').getHash ≠ (remainder tag' 1).getHash

theorem exists_remainder (hApart : Apart tag tag') (hash : Uint256) : ∃ nValue : Int, (0 ≤ nValue ∧ nValue ≤ 1) ∧
    hash ≠ (remainder tag' nValue).getHash ∧ (paying tag').getHash ≠ (remainder tag' nValue).getHash := by
  obtain ⟨-, -, -, -, hVariants, hZero, hOne⟩ := hApart
  by_cases hEq : hash = (remainder tag' 0).getHash
  · exact ⟨1, by decide, hEq ▸ hVariants, hOne⟩
  · exact ⟨0, by decide, hEq, hZero⟩

/-- All a large transaction has to be for the sum to exceed its range. -/
theorem Blocks.overflow (blocks : Blocks (paying tag) (paying tag')) (hApart : Apart tag tag')
    {large : NetMessageTransaction} (hSize : large.getSerializeSize ≤ 300000)
    (hOther : (paying tag').getHash ≠ large.getHash)
    (hMissing : ∀ ledger : Ledger, ledger.txIndex[(paying tag').getHash]? = none → ledger.allInputsFound large = false)
    (hFees : ∀ (ledger : Ledger) (idx idx' : TxIdx), ledger.txIndex[(paying tag).getHash]? = some idx →
      idx.tx = paying tag → ledger.txIndex[(paying tag').getHash]? = some idx' → idx'.tx = paying tag' →
      ledger.getFees large = 4392 * maxMoney) :
    ∃ node : Node, Node.History anyScript node ∧ node.memPool.SizesOk ∧
      2 ^ 63 ≤ node.ledger.feesOf ((node.memPool.inReach node.ledger).map Prod.snd) ∧
      node.ledger.feesOf ((node.memPool.inReach node.ledger).map Prod.snd) < 2 ^ 64 := by
  have hMoney : maxMoney = 2100000000000000 := rfl
  obtain ⟨nValue, ⟨hNonneg, hLe⟩, hNe, hSmall⟩ := exists_remainder hApart large.getHash
  obtain ⟨hGenesis, hTags, hNull, hNull', -⟩ := hApart
  have hFound : ∀ ledger : Ledger, ledger.txIndex[(paying tag').getHash]? = none →
      ledger.allInputsFound (remainder tag' nValue) = false := by
    intro ledger hNone
    rw [Ledger.allInputsFound, remainder, plainSpend, List.all_cons, contains_eq_isSome, hNone]
    rfl
  obtain ⟨node, hHistory, hLedger, hPool⟩ := blocks.arrival ⟨hGenesis, hTags⟩ hNe ⟨hOther, hSmall⟩
    fun ledger hNone => ⟨hMissing ledger hNone, hFound ledger hNone⟩
  obtain ⟨hLower, hUpper⟩ := blocks.lookup_both hTags (spends_plainCoinbase _ _) ⟨by simp [paying, plainCoinbase],
    by simp [paying, plainCoinbase]⟩ ⟨fun hEq => hNull (congrArg OutPoint.hashTransaction hEq),
      fun hEq => hNull' (congrArg OutPoint.hashTransaction hEq)⟩
  rw [← hLedger] at hLower hUpper
  have hLarge := hFees _ _ _ hLower rfl hUpper rfl
  have hRest : node.ledger.getFees (remainder tag' nValue) = maxMoney - nValue :=
    @Ledger.getFees_plainSpend node.ledger ⟨(paying tag').getHash, 0⟩ _ ⟨maxMoney, [0x51]⟩ nValue hUpper rfl hNonneg
      (by dsimp only; omega) (Int.le_refl _)
  have hRestSize : (remainder tag' nValue).getSerializeSize ≤ 1000 := getSerializeSize_plain_le _ (Nat.zero_le _) _
  refine ⟨node, hHistory, ?_, ?_⟩
  · intro hash tx hGet
    have hLimit : maxProtocolMessageLength = 4000000 := rfl
    rcases (hPool hash tx).mp hGet with hEq | hEq <;> cases hEq <;> omega
  · rw [Node.feesOf_inReach_two hNe hPool ⟨by omega, by omega⟩ (by omega), hLarge, hRest]
    omega

end Overflow

/-- Both of the coinbases are spent, so whichever of them comes last, the transaction waits for it. -/
def large : NetMessageTransaction := repeated (paying 1) (paying 2) 2196

theorem evaluated : (Apart 1 2 ∧ Apart 2 1) ∧
    checkBlockContents (blockOn Uint256.null [paying 1] 0 0) = true ∧
    checkBlockContents (blockOn Uint256.null [paying 2] 0 0) = true := by
  simp only [Apart]
  decide +kernel

theorem headers : headersOk params.hashGenesisBlock [params.hashGenesisBlock]
      [block params.hashGenesisBlock 1 0, block (block params.hashGenesisBlock 1 0).getHash 2 3] = true ∧
    headersOk params.hashGenesisBlock [params.hashGenesisBlock]
      [block params.hashGenesisBlock 2 2, block (block params.hashGenesisBlock 2 2).getHash 1 1] = true := by
  decide +kernel

theorem size_large : large.getSerializeSize ≤ 300000 :=
  (getSerializeSize_repeated_le _ _ 2196).trans (by decide)

theorem missing_large {ledger : Ledger} (hMissing : ledger.txIndex[(paying 1).getHash]? = none ∨
    ledger.txIndex[(paying 2).getHash]? = none) : ledger.allInputsFound large = false := by
  rw [large]
  exact allInputsFound_repeated hMissing (by omega)

theorem fees_large {ledger : Ledger} {idx idx' : TxIdx} (hFirst : ledger.txIndex[(paying 1).getHash]? = some idx)
    (hTx : idx.tx = paying 1) (hSecond : ledger.txIndex[(paying 2).getHash]? = some idx') (hTx' : idx'.tx = paying 2) :
    ledger.getFees large = 4392 * maxMoney := by
  have hOut : idx.tx.vout = [⟨maxMoney, [0x51]⟩] := by rw [hTx]; rfl
  have hOut' : idx'.tx.vout = [⟨maxMoney, [0x51]⟩] := by rw [hTx']; rfl
  rw [large, getFees_repeated hFirst hOut hSecond hOut' (by decide) (by decide)]
  decide

/-- The hash of the large transaction is not that of both coinbases, so one of them can come last. -/
theorem exists_overflow : ∃ node : Node, Node.History anyScript node ∧ node.memPool.SizesOk ∧
    2 ^ 63 ≤ node.ledger.feesOf ((node.memPool.inReach node.ledger).map Prod.snd) ∧
    node.ledger.feesOf ((node.memPool.inReach node.ledger).map Prod.snd) < 2 ^ 64 := by
  obtain ⟨⟨hApart, hApart'⟩, hContents, hContents'⟩ := evaluated
  by_cases hLast : (paying 2).getHash = large.getHash
  · have hOther : (paying 1).getHash ≠ large.getHash := by
      rw [← hLast]
      exact hApart.2.1
    refine (blocksOf _ _ rfl rfl headers.2 ⟨hContents', hContents⟩).overflow hApart' size_large hOther ?_ ?_
    · exact fun ledger hNone => missing_large (.inl hNone)
    · exact fun ledger idx idx' hUpper hTx hLower hTx' => fees_large hLower hTx' hUpper hTx
  · refine (blocksOf _ _ rfl rfl headers.1 ⟨hContents, hContents'⟩).overflow hApart size_large hLast ?_ ?_
    · exact fun ledger hNone => missing_large (.inr hNone)
    · exact fun ledger idx idx' hLower hTx hUpper hTx' => fees_large hLower hTx hUpper hTx'

end FeeOverflow

/-- A node that has two blocks and two transactions: both transactions are selected, and the sum of their fees comes out
negative. -/
theorem exists_not_selectsRight : ∃ node : Node, Node.History anyScript node ∧ node.memPool.SizesOk ∧
    (getNewBlockTxs node.ledger node.memPool).nFees < 0 ∧
    ¬ ∃ taken, SelectsRight node.ledger node.memPool taken (getNewBlockTxs node.ledger node.memPool) := by
  obtain ⟨node, hHistory, hSizes, hLow, hHigh⟩ := FeeOverflow.exists_overflow
  refine ⟨node, hHistory, hSizes, ?_, ?_⟩
  · rw [nFees_getNewBlockTxs (hSizes.stops _), toInt64, Int.bmod_def]
    split <;> omega
  · rw [exists_selectsRight_iff hSizes]
    omega

end BitcoinGpuMiner
