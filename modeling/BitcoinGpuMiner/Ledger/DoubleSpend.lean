import BitcoinGpuMiner.Ledger.PlainChain

/-! # Double spends

The used mark of an output protects it until a later transaction makes the same output again.
Without such revivals no output is spent twice on a chain; with one it can be.
-/

namespace BitcoinGpuMiner

open Foundation

set_option autoImplicit false

def spendsOf (txs : List TxIdx) : List OutPoint := txs.flatMap fun idx => idx.tx.spends

/-- No transaction of the block makes an output that is marked as used or spent by the block. -/
def NoRevival : BlockRule := fun ledger _ block =>
  ∀ tx ∈ block.vtx, ∀ pt ∈ tx.outPoints,
    (∀ entry, ledger.utxo[pt]? = some entry → entry.isUsed = false) ∧ ∀ other ∈ block.vtx, pt ∉ other.spends

theorem spendsOf_blockTxs (height : Nat) (block : Block) :
    spendsOf (blockTxs height block) = block.vtx.flatMap NetMessageTransaction.spends := by
  rw [spendsOf, blockTxs, List.flatMap_map]

/-- What is marked as used was spent. -/
theorem mem_spendsOf_of_used {txs : List TxIdx} {pt : OutPoint} {entry : UtxoEntry}
    (hEntry : (Ledger.replay txs).utxo[pt]? = some entry) (hUsed : entry.isUsed = true) : pt ∈ spendsOf txs := by
  have hPt : pt ≠ OutPoint.null := by
    rintro rfl
    rw [Ledger.lookup_null_replay] at hEntry
    cases hEntry
  induction txs using List.reverseRecOn generalizing entry with
  | nil => simp [Ledger.replay, Ledger.empty] at hEntry
  | append_singleton txs idx ih =>
    rw [Ledger.replay_append] at hEntry
    replace hEntry : ((Ledger.replay txs).utxo.cacheUTXO idx.tx idx.hashBlock idx.height)[pt]? = some entry := hEntry
    rw [UtxoSet.lookup_cacheUTXO hPt] at hEntry
    rw [spendsOf, List.flatMap_append, List.mem_append, List.flatMap_singleton]
    split at hEntry
    · cases hEntry
      cases hUsed
    · split at hEntry
      case isTrue hSpent => exact .inr hSpent
      case isFalse => exact .inl (ih hEntry hUsed)

/-- Nothing comes back where no transaction of the block has the hash of a spent one. -/
theorem noRevival_of_distinct {chain : List Block} {block : Block} (height : Int)
    (hDistinct : ∀ pt ∈ spendsOf (txsOfChain chain) ++ block.vtx.flatMap NetMessageTransaction.spends, ∀ tx ∈ block.vtx,
      pt.hashTransaction ≠ tx.getHash) : NoRevival (ledgerOf chain) height block := by
  intro tx hTx pt hPt
  have hHash := NetMessageTransaction.hash_of_mem_outPoints hPt
  constructor
  · intro entry hEntry
    rw [Bool.eq_false_iff]
    intro hUsed
    exact hDistinct pt (List.mem_append_left _ (mem_spendsOf_of_used hEntry hUsed)) tx hTx hHash
  · intro other hOther hSpent
    exact hDistinct pt (List.mem_append_right _ (List.mem_flatMap.mpr ⟨other, hOther, hSpent⟩)) tx hTx hHash

section Chain

variable {verifyScript : VerifyScript} {chain : List Block} {block : Block}

theorem spendsOf_append_singleton (chain : List Block) (block : Block) : spendsOf (txsOfChain (chain ++ [block])) =
    spendsOf (txsOfChain chain) ++ block.vtx.flatMap NetMessageTransaction.spends := by
  rw [txsOfChain_append_singleton, spendsOf, List.flatMap_append]
  exact congrArg _ (spendsOf_blockTxs ..)

theorem spendsOf_of_coinbases (hBlocks : ∀ block ∈ chain, ∀ tx ∈ block.vtx, tx.spends = []) :
    spendsOf (txsOfChain chain) = [] := by
  induction chain using List.reverseRecOn with
  | nil => rfl
  | append_singleton chain block ih =>
    rw [spendsOf_append_singleton, ih fun earlier hEarlier => hBlocks earlier (List.mem_append_left _ hEarlier),
      List.nil_append, List.flatMap_eq_nil_iff]
    exact hBlocks block (List.mem_append_right _ (List.mem_singleton_self _))

theorem Follows.spent_unspent (hFollows : Follows verifyScript chain block) {pt : OutPoint}
    (hPt : pt ∈ block.vtx.flatMap NetMessageTransaction.spends) :
    pt ≠ OutPoint.null ∧ (ledgerOf chain).utxo.Unspent pt := by
  obtain ⟨tx, hTx, hSpent⟩ := List.mem_flatMap.mp hPt
  obtain ⟨i, txIn, -, rfl, hInput⟩ := hFollows.inputOk hTx hSpent
  exact ⟨hInput.notNull, hInput.unspent⟩

theorem Follows.spends_nodup (hFollows : Follows verifyScript chain block) :
    (block.vtx.flatMap NetMessageTransaction.spends).Nodup :=
  hFollows.contents.vtx.prevOutsNodup.sublist (flatMap_spends_sublist block.vtx)

theorem Follows.used_after (hFollows : Follows verifyScript chain block)
    (hRule : NoRevival (ledgerOf chain) chain.length block) {pt : OutPoint} (hPt : pt ≠ OutPoint.null)
    (hUsed : pt ∈ block.vtx.flatMap NetMessageTransaction.spends ∨
      ∃ entry, (ledgerOf chain).utxo[pt]? = some entry ∧ entry.isUsed = true) :
    ∃ entry, (ledgerOf (chain ++ [block])).utxo[pt]? = some entry ∧ entry.isUsed = true := by
  have hMade : ∀ idx ∈ blockTxs chain.length block, pt ∉ idx.tx.outPoints := by
    intro idx hIdx hMem
    obtain ⟨tx, hTx, rfl⟩ := List.mem_map.mp hIdx
    obtain ⟨hUnused, hUnspent⟩ := hRule tx hTx pt hMem
    rcases hUsed with hSpent | ⟨entry, hEntry, hTrue⟩
    · obtain ⟨other, hOther, hSpent⟩ := List.mem_flatMap.mp hSpent
      exact hUnspent other hOther hSpent
    · exact absurd (hUnused entry hEntry) (by simp [hTrue])
  rw [ledgerOf, txsOfChain_append_singleton, Ledger.replay_append, Ledger.lookup_foldl_record _ _ hPt hMade]
  change ∃ entry, (if pt ∈ spendsOf (blockTxs chain.length block) then _ else _) = some entry ∧ _
  rw [spendsOf_blockTxs]
  split
  case isTrue hSpent =>
    obtain ⟨-, entry, hEntry, -⟩ := hFollows.spent_unspent hSpent
    rw [ledgerOf] at hEntry
    exact ⟨{ entry with isUsed := true }, by rw [hEntry, Option.map_some], rfl⟩
  case isFalse hSpent =>
    rcases hUsed with hMem | hEntry
    · exact absurd hMem hSpent
    · exact hEntry

/-- The invariant: every spent output is marked, and none is spent twice. -/
theorem ValidChain.spends_invariant (hChain : ValidChain verifyScript NoRevival chain) :
    (∀ pt ∈ spendsOf (txsOfChain chain), pt ≠ OutPoint.null ∧
      ∃ entry, (ledgerOf chain).utxo[pt]? = some entry ∧ entry.isUsed = true) ∧
    (spendsOf (txsOfChain chain)).Nodup := by
  induction hChain with
  | genesis =>
    have hNone : spendsOf (txsOfChain [getGenesisBlock]) = [] := rfl
    rw [hNone]
    exact ⟨by simp, List.nodup_nil⟩
  | @extend chain block hChain hFollows hRule ih =>
    obtain ⟨hMarked, hNodup⟩ := ih
    rw [spendsOf_append_singleton]
    constructor
    · intro pt hPt
      rcases List.mem_append.mp hPt with hOld | hNew
      · obtain ⟨hNull, hUsed⟩ := hMarked pt hOld
        exact ⟨hNull, hFollows.used_after hRule hNull (.inr hUsed)⟩
      · have hNull := (hFollows.spent_unspent hNew).1
        exact ⟨hNull, hFollows.used_after hRule hNull (.inl hNew)⟩
    · rw [List.nodup_append]
      refine ⟨hNodup, hFollows.spends_nodup, ?_⟩
      rintro pt hOld _ hNew rfl
      obtain ⟨-, entry, hEntry, hUsed⟩ := hMarked pt hOld
      obtain ⟨-, other, hOther, hUnused⟩ := hFollows.spent_unspent hNew
      cases hEntry.symm.trans hOther
      exact absurd hUsed (by simp [hUnused])

end Chain

namespace Node

/-- No output is spent twice on the chain of a run without revivals. -/
theorem spends_nodup_of_noRevival {verifyScript : VerifyScript} {node : Node}
    (hRun : TipRun verifyScript NoRevival node) : (spendsOf node.chainTxs).Nodup := by
  have hTree : node.Tree := Run.tree hRun
  rw [hTree.chainTxs_eq]
  exact hRun.refines.valid.spends_invariant.2

end Node

/-! A chain on which an output is spent twice: its coinbase is repeated after the first spend, which
takes the used mark away. -/

namespace Revival

def paid : NetMessageTransaction := plainCoinbase [1, 0] (50 * coin)

def filler : NetMessageTransaction := plainCoinbase [2, 0] (50 * coin)

def output : OutPoint := ⟨paid.getHash, 0⟩

def rows : List (List NetMessageTransaction) := [paid] :: List.replicate 99 [filler]

def lastHash (blocks : List Block) : Uint256 := (blocks.getLast?.map Block.getHash).getD Uint256.null

def firstPart : List Block := blocksOn params.hashGenesisBlock rows
  [1, 2, 1, 2, 2, 1, 0, 0, 0, 6, 0, 0, 0, 1, 1, 0, 0, 0, 2, 0, 1, 3, 3, 0, 0, 0, 3, 0, 3, 1, 0, 0, 0, 0,
   0, 0, 1, 4, 1, 0, 1, 7, 1, 0, 0, 0, 0, 4, 0, 3, 0, 0, 0, 0, 1, 1, 2, 0, 1, 0, 2, 3, 0, 2, 0, 1, 0, 0,
   0, 0, 1, 1, 2, 0, 4, 2, 1, 0, 3, 0, 0, 3, 2, 0, 6, 0, 1, 1, 1, 2, 3, 1, 1, 2, 0, 0, 0, 0, 2, 1]

def firstSpend : Block :=
  blockOn (lastHash firstPart) [filler, plainSpend output (50 * coin)] 1296688603 2

def secondPart : List Block := blocksOn firstSpend.getHash rows
  [2, 1, 0, 0, 1, 0, 4, 2, 2, 1, 2, 0, 0, 2, 1, 2, 2, 0, 1, 0, 0, 1, 0, 1, 1, 0, 0, 0, 2, 1, 2, 0, 1, 0,
   0, 3, 1, 0, 0, 1, 5, 0, 1, 2, 5, 0, 0, 1, 0, 1, 5, 0, 0, 2, 0, 2, 0, 1, 2, 0, 4, 1, 0, 2, 0, 0, 0, 0,
   0, 0, 1, 0, 2, 0, 0, 1, 1, 0, 1, 1, 4, 3, 0, 1, 3, 1, 1, 1, 0, 0, 0, 0, 0, 3, 1, 2, 0, 1, 2, 0]

def secondSpend : Block :=
  blockOn (lastHash secondPart) [filler, plainSpend output (49 * coin)] 1296688603 0

def tipHash : Uint256 := Uint256.ofArith 0x7c37e058128095095e152e48323055984482aae58fd8951961985203426b71fc

theorem lastHash_of_stretchOk {top last : Uint256} {block : Block} {rest : List Block} {marks : List Nat}
    (hOk : stretchOk top last (block :: rest) marks = true) : lastHash (block :: rest) = top := by
  induction rest generalizing last block marks with
  | nil =>
    cases marks with
    | nil => cases hOk
    | cons mark marks =>
      cases marks with
      | nil =>
        simp only [stretchOk, Bool.and_eq_true] at hOk
        exact eq_of_beq hOk.2
      | cons next marks => simp [stretchOk] at hOk
  | cons next rest ih =>
    cases marks with
    | nil => cases hOk
    | cons mark marks =>
      rw [stretchOk, Bool.and_eq_true] at hOk
      rw [lastHash, List.getLast?_cons_cons]
      exact ih hOk.2

def firstStretch : Stretch params.hashGenesisBlock tipHash firstPart where
  marks :=
    [23629, 3344, 64868, 61197, 47447, 40013, 45922, 4896, 49190, 43294, 26739, 13628, 11884, 54306, 38219, 14872,
     10561, 10316, 23389, 24156, 40573, 50944, 9334, 39980, 28521, 27401, 59905, 21529, 18227, 61772, 36166,
     23387, 59491, 26140, 62040, 43288, 65094, 39763, 26888, 29209, 27182, 54860, 45157, 31536, 23623, 16210,
     8454, 9055, 56358, 25437, 9063, 45104, 1851, 8992, 56686, 43790, 63494, 40750, 21048, 56087, 60283, 46950,
     55894, 43798, 23915, 21282, 62571, 18215, 4923, 34599, 33575, 24438, 63348, 50219, 60264, 42302, 2862, 15727,
     25979, 51037, 25348, 38938, 57658, 41555, 8278, 17716, 36434, 45145, 56593, 10618, 18711, 47107, 12887,
     56175, 34816, 53115, 49535, 40994, 43799, 14204]
  ok := by
    refine stretchOk_blocksOn 25
      (Uint256.ofArith 0x696f455a598fcfbd9e4ae8c88b4b28df734186f480c6f2c459cc719f803ad59a) (by decide +kernel) ?_
    refine stretchOk_blocksOn 25
      (Uint256.ofArith 0x5d634266a156b4eebe58d3e2c09d09ca53430598dd684258222d8897fc863a05) (by decide +kernel) ?_
    refine stretchOk_blocksOn 25
      (Uint256.ofArith 0x68eb0f00dcfb1d12f169ec2e19d99ba47c56357dba79436aae1d520b2f56c1ee) (by decide +kernel) ?_
    decide +kernel

theorem lastHash_firstPart : lastHash firstPart = tipHash := lastHash_of_stretchOk firstStretch.ok

def firstSpendHash : Uint256 :=
  Uint256.ofArith 0x7a276e0410a74f2df612d736f273d71b5d38cdc5368791620a0a0fb20443ea40

def firstSpendStretch : Stretch tipHash firstSpendHash [firstSpend] where
  marks := [10106]
  ok := by
    rw [firstSpend, lastHash_firstPart]
    decide +kernel

theorem getHash_firstSpend : firstSpend.getHash = firstSpendHash := by
  have hLast := lastHash_of_stretchOk firstSpendStretch.ok
  rwa [lastHash, List.getLast?_singleton, Option.map_some, Option.getD_some] at hLast

def secondTipHash : Uint256 :=
  Uint256.ofArith 0x207ce31c955850aaddd409886a862f8e3542448fc0dc55655fbda49520c9ce6

def secondStretch : Stretch firstSpendHash secondTipHash secondPart where
  marks :=
    [36935, 3412, 13359, 39261, 3687, 37424, 5132, 22313, 18448, 62770, 50753, 45130, 2058, 324, 13170, 44069,
     28941, 63020, 46931, 15136, 45598, 33385, 46170, 43340, 35947, 24867, 41071, 28001, 57412, 45621, 64305,
     51463, 43850, 34839, 13639, 21509, 2120, 3870, 52541, 7775, 2059, 14656, 31538, 54311, 52853, 2401, 47884,
     45594, 19809, 21008, 39242, 44926, 40221, 25629, 48928, 61745, 58924, 2573, 38410, 26381, 59484, 61287, 9218,
     46848, 34089, 25101, 32047, 28953, 5929, 39246, 3431, 57664, 57368, 51573, 51268, 51039, 33886, 53876, 30286,
     37649, 34381, 7789, 44387, 27475, 15106, 61457, 35887, 52224, 27757, 15684, 313, 8200, 21258, 12577, 55136,
     6948, 39739, 23420, 63001, 1794]
  ok := by
    rw [secondPart, getHash_firstSpend]
    refine stretchOk_blocksOn 25
      (Uint256.ofArith 0x6b8c0ce47b9646ff8b8641ec1f79ab9e41d74e8b5c0b0d7a450a046f1ae8a430) (by decide +kernel) ?_
    refine stretchOk_blocksOn 25
      (Uint256.ofArith 0x10528d32b747d7f4222bcc2c60da1dc7ccaac48ac6c05178b4a11430e7ae5027) (by decide +kernel) ?_
    refine stretchOk_blocksOn 25
      (Uint256.ofArith 0x44c8bf14992ff0b3026cd302622fc5fe96f09085021fd3894f65512fe3f9c664) (by decide +kernel) ?_
    decide +kernel

theorem lastHash_secondPart : lastHash secondPart = secondTipHash := lastHash_of_stretchOk secondStretch.ok

def secondSpendStretch : Stretch secondTipHash
    (Uint256.ofArith 0x75c7eb4479f8b9aefa55f67520a3f9b794612e20e71727f3b6188fcd3a7baa56) [secondSpend] where
  marks := [51061]
  ok := by
    rw [secondSpend, lastHash_secondPart]
    decide +kernel

theorem headers : headersOk params.hashGenesisBlock [params.hashGenesisBlock]
      (firstPart ++ firstSpend :: (secondPart ++ [secondSpend])) = true ∧
    lastHash firstPart = tipHash := by
  have hSpends :=
    stretchOk_append firstSpendStretch.ok (stretchOk_append secondStretch.ok secondSpendStretch.ok)
  refine ⟨headersOk_of_stretchOk (stretchOk_append firstStretch.ok hSpends) ?_ ?_, lastHash_firstPart⟩
  · decide +kernel
  · decide +kernel

theorem contents : (checkBlockContents (blockOn Uint256.null [paid] 0 0) = true ∧
      checkBlockContents (blockOn Uint256.null [filler] 0 0) = true) ∧
    checkBlockContents (blockOn Uint256.null [filler, plainSpend output (50 * coin)] 0 0) = true ∧
      checkBlockContents (blockOn Uint256.null [filler, plainSpend output (49 * coin)] 0 0) = true := by
  decide +kernel

theorem paid_ne : filler.getHash ≠ paid.getHash ∧ genesisTransaction.getHash ≠ paid.getHash ∧
    output ≠ OutPoint.null := by
  decide +kernel

theorem plain_of_mem_rows {vtx : List NetMessageTransaction} (hMem : vtx ∈ rows) : vtx = [paid] ∨ vtx = [filler] := by
  rcases List.mem_cons.mp hMem with rfl | hMem
  · exact .inl rfl
  · exact .inr (List.eq_of_mem_replicate hMem)

theorem coinbases_of_mem {last : Uint256} {nonces : List UInt32} {block : Block}
    (hMem : block ∈ blocksOn last rows nonces) : checkBlockContents block = true ∧
      ∃ tx, block.vtx = [tx] ∧ TxFormat tx ∧ tx.isCoinBase = true := by
  obtain ⟨hashPrevBlock, vtx, nNonce, hRow, rfl⟩ := mem_blocksOn hMem
  rw [checkBlockContents_blockOn]
  have hRange : moneyRange (50 * coin) = true := by decide
  rcases plain_of_mem_rows hRow with rfl | rfl
  · exact ⟨contents.1.1, paid, rfl, txFormat_plainCoinbase (by simp) (by simp) hRange, rfl⟩
  · exact ⟨contents.1.2, filler, rfl, txFormat_plainCoinbase (by simp) (by simp) hRange, rfl⟩

theorem exists_part (last : Uint256) (nonce : UInt32) (nonces : List UInt32) :
    ∃ block more, blocksOn last rows (nonce :: nonces) = block :: more ∧ block.vtx = [paid] ∧
      ∀ later ∈ more, ∀ tx ∈ later.vtx, tx.getHash ≠ paid.getHash ∧ output ∉ tx.spends := by
  refine ⟨_, _, rfl, rfl, ?_⟩
  intro later hLater tx hTx
  obtain ⟨hashPrevBlock, vtx, nNonce, hRow, rfl⟩ := mem_blocksOn hLater
  rw [List.eq_of_mem_replicate hRow] at hTx
  cases List.mem_singleton.mp hTx
  rw [filler, spends_plainCoinbase]
  exact ⟨paid_ne.1, by simp⟩

theorem part_kept (chain : List Block) (last : Uint256) (nonce : UInt32) (nonces : List UInt32) :
    (ledgerOf (chain ++ blocksOn last rows (nonce :: nonces))).utxo.Unspent output ∧
      ∃ hashBlock, (ledgerOf (chain ++ blocksOn last rows (nonce :: nonces))).txIndex[paid.getHash]? =
        some ⟨hashBlock, chain.length, paid⟩ := by
  obtain ⟨block, more, hPart, hVtx, hMore⟩ := exists_part last nonce nonces
  obtain ⟨hUnspent, hIdx⟩ := coinbase_kept chain hVtx (by simp [paid, plainCoinbase]) hMore paid_ne.2.2
  rw [hPart, List.append_cons]
  exact ⟨hUnspent, _, hIdx⟩

theorem firstPart_kept : (ledgerOf ([getGenesisBlock] ++ firstPart)).utxo.Unspent output ∧
    ∃ hashBlock, (ledgerOf ([getGenesisBlock] ++ firstPart)).txIndex[paid.getHash]? = some ⟨hashBlock, 1, paid⟩ :=
  part_kept [getGenesisBlock] _ _ _

theorem txOk_spend (chain : List Block) (last : Uint256) (nonce : UInt32) (nonces : List UInt32)
    (hLength : (blocksOn last rows (nonce :: nonces)).length = 100) {nValue : Int} (hNonneg : 0 ≤ nValue)
    (hLe : nValue ≤ 50 * coin) (scriptFlags : UInt32) :
    TxOk anyScript (ledgerOf (chain ++ blocksOn last rows (nonce :: nonces))) scriptFlags
      (chain ++ blocksOn last rows (nonce :: nonces)).length (plainSpend output nValue) := by
  obtain ⟨hUnspent, hashBlock, hIdx⟩ := part_kept chain last nonce nonces
  refine txOk_plainSpend paid_ne.2.2 hUnspent hIdx rfl (fun _ => ?_) hNonneg hLe (by decide)
  rw [List.length_append, hLength, coinbaseMaturity]
  dsimp only
  omega

theorem vtxValid_spend (chain : List Block) (last : Uint256) (nonce : UInt32) (nonces : List UInt32)
    (hLength : (blocksOn last rows (nonce :: nonces)).length = 100) {nValue : Int} (hNonneg : 0 ≤ nValue)
    (hLe : nValue ≤ 50 * coin) :
    VtxValid anyScript (ledgerOf (chain ++ blocksOn last rows (nonce :: nonces)))
      (chain ++ blocksOn last rows (nonce :: nonces)).length [filler, plainSpend output nValue] := by
  apply vtxValid_cons_coinbase (txFormat_plainCoinbase (by simp) (by simp) (by decide)) rfl
  intro tx hTx
  rw [List.mem_singleton.mp hTx]
  exact txOk_spend chain last nonce nonces hLength hNonneg hLe _

theorem valid_firstPart : ValidChain anyScript BlockRule.any ([getGenesisBlock] ++ firstPart) := by
  refine ValidChain.genesis.append_coinbases ?_ fun block hMem => coinbases_of_mem hMem
  intro before block after hSplit
  exact headerOk_of_genesis headers.1 before (after ++ firstSpend :: (secondPart ++ [secondSpend])) (by rw [hSplit]; simp)

theorem exists_firstPart : ∃ (node : Node) (tip : BlockIndex), Node.TipRun anyScript BlockRule.any node ∧
    node.Holds ([getGenesisBlock] ++ firstPart) ∧ node.ledger = ledgerOf ([getGenesisBlock] ++ firstPart) ∧
    node.tips.getActiveTip = some tip ∧ tip.height = 100 ∧ tip.hash = tipHash := by
  obtain ⟨node, hRun, hHolds⟩ := Node.exists_tipRun valid_firstPart
  have hTree : node.Tree := Node.Run.tree hRun
  obtain ⟨tip, hTip⟩ := hTree.exists_active
  refine ⟨node, tip, hRun, hHolds, hHolds.blocks ▸ hRun.refines.ledger, hTip, ?_, ?_⟩
  · have hLength := hTree.length_activeBlocks hTip
    rw [hHolds.blocks] at hLength
    have : ([getGenesisBlock] ++ firstPart).length = 101 := rfl
    omega
  · have hLast := hTree.getLast_activeBlocks hTip
    rw [hHolds.blocks] at hLast
    rw [← headers.2, lastHash]
    exact (congrArg (Option.getD · Uint256.null) hLast).symm

theorem valid_firstSpend : ValidChain anyScript BlockRule.any ([getGenesisBlock] ++ firstPart ++ [firstSpend]) := by
  refine valid_firstPart.extend ((headerOk_of_genesis headers.1 firstPart _ rfl).follows ?_ ?_) trivial
  · rw [firstSpend, checkBlockContents_blockOn]
    exact contents.2.1
  · exact vtxValid_spend _ _ _ _ rfl (by decide) (by decide)

theorem valid_secondPart :
    ValidChain anyScript BlockRule.any ([getGenesisBlock] ++ firstPart ++ [firstSpend] ++ secondPart) := by
  refine valid_firstSpend.append_coinbases ?_ fun block hMem => coinbases_of_mem hMem
  intro before block after hSplit
  rw [List.append_assoc, List.append_assoc]
  exact headerOk_of_genesis headers.1 _ (after ++ [secondSpend]) (by rw [hSplit]; simp)

theorem valid_secondSpend : ValidChain anyScript BlockRule.any
    ([getGenesisBlock] ++ firstPart ++ [firstSpend] ++ secondPart ++ [secondSpend]) := by
  have hHeader : HeaderOk ([getGenesisBlock] ++ firstPart ++ [firstSpend] ++ secondPart) secondSpend := by
    rw [List.append_assoc, List.append_assoc]
    exact headerOk_of_genesis headers.1 _ [] (by simp)
  refine valid_secondPart.extend (hHeader.follows ?_ ?_) trivial
  · rw [secondSpend, checkBlockContents_blockOn]
    exact contents.2.2
  · exact vtxValid_spend _ _ _ _ rfl (by decide) (by decide)

theorem output_mem_spendsOf (height : Nat) (hashPrevBlock : Uint256) (nNonce : UInt32) (nValue : Int) :
    output ∈ spendsOf (blockTxs height
      (blockOn hashPrevBlock [filler, plainSpend output nValue] 1296688603 nNonce)) := by
  have hSpends : (plainSpend output nValue).spends = [output] := spends_plainSpend paid_ne.2.2 _
  rw [spendsOf_blockTxs, List.mem_flatMap]
  exact ⟨plainSpend output nValue, by simp [blockOn], by simp [hSpends]⟩

end Revival

/-! Two payments on top of the first part, each with a fee of one coin; the second one spends what the first one makes. -/

namespace Payments

open Revival

def first : NetMessageTransaction := plainSpend output (49 * coin)

def change : OutPoint := ⟨first.getHash, 0⟩

def second : NetMessageTransaction := plainSpend change (48 * coin)

def firstBlock : Block := blockOn tipHash [filler, first] 1296688603 0

def firstHash : Uint256 := Uint256.ofArith 43133145560874750573458630841266579696260568314265406311187519352146523735431

def secondBlock : Block := blockOn firstHash [filler, second] 1296688603 0

def stretch : Stretch tipHash
    (Uint256.ofArith 45923560212241075481017873137892958598782210372752364143437103666511208098239)
    [firstBlock, secondBlock] where
  marks := [23647, 34661]
  ok := by decide +kernel

theorem headers : headersOk params.hashGenesisBlock [params.hashGenesisBlock] (firstPart ++ [firstBlock, secondBlock]) =
    true := by
  refine headersOk_of_stretchOk (stretchOk_append firstStretch.ok stretch.ok) ?_ ?_
  · decide +kernel
  · decide +kernel

theorem contents : checkBlockContents firstBlock = true ∧ checkBlockContents secondBlock = true := by decide +kernel

theorem hashes : change ≠ OutPoint.null ∧ paid.getHash ≠ first.getHash ∧ paid.getHash ≠ second.getHash ∧
    first.getHash ≠ filler.getHash ∧ first.getHash ≠ second.getHash := by decide +kernel

/-- The ledger after the first payment has its output. -/
theorem change_kept (chain : List Block) : (ledgerOf (chain ++ [firstBlock])).utxo.Unspent change ∧
    (ledgerOf (chain ++ [firstBlock])).txIndex[first.getHash]? = some ⟨firstBlock.getHash, chain.length, first⟩ := by
  rw [ledgerOf_append_singleton]
  constructor
  · refine (UtxoSet.unspent_cacheUTXO_iff hashes.1 ..).mpr (.inl ?_)
    exact List.mem_map_of_mem (List.mem_range.mpr Nat.one_pos)
  · exact lookup_insert_self ..

theorem txOk_second (chain : List Block) (scriptFlags : UInt32) (height : Int) :
    TxOk anyScript (ledgerOf (chain ++ [firstBlock])) scriptFlags height second := by
  obtain ⟨hUnspent, hIdx⟩ := change_kept chain
  refine txOk_plainSpend hashes.1 hUnspent hIdx rfl ?_ (by decide) (by decide) (by decide)
  intro hCoinBase
  cases hCoinBase.symm.trans (isCoinBase_plainSpend paid_ne.2.2 _)

theorem follows_first : Follows anyScript ([getGenesisBlock] ++ firstPart) firstBlock :=
  (headerOk_of_genesis headers firstPart [secondBlock] rfl).follows contents.1
    (vtxValid_spend [getGenesisBlock] _ _ _ rfl (by decide) (by decide))

theorem follows_second : Follows anyScript ([getGenesisBlock] ++ firstPart ++ [firstBlock]) secondBlock := by
  rw [List.append_assoc]
  refine (headerOk_of_genesis headers (firstPart ++ [firstBlock]) [] (by simp)).follows contents.2 ?_
  rw [← List.append_assoc]
  apply vtxValid_cons_coinbase (txFormat_plainCoinbase (by simp) (by simp) (by decide)) rfl
  intro tx hTx
  rw [List.mem_singleton.mp hTx]
  exact txOk_second _ _ _

def chain : List Block := [getGenesisBlock] ++ firstPart ++ [firstBlock] ++ [secondBlock]

/-- The chain is valid under any rule that its blocks obey. -/
theorem valid {rule : BlockRule}
    (hPart : ∀ before block after, firstPart = before ++ block :: after →
      rule (ledgerOf ([getGenesisBlock] ++ before)) (before.length + 1) block)
    (hFirst : rule (ledgerOf ([getGenesisBlock] ++ firstPart)) 101 firstBlock)
    (hSecond : rule (ledgerOf ([getGenesisBlock] ++ firstPart ++ [firstBlock])) 102 secondBlock) :
    ValidChain anyScript rule chain := by
  have hFirstPart : ValidChain anyScript rule ([getGenesisBlock] ++ firstPart) := by
    refine valid_firstPart.of_split ?_
    intro before block after hSplit hNonempty
    cases before with
    | nil => exact absurd rfl hNonempty
    | cons head before =>
      injection hSplit with hHead hTail
      subst hHead
      have hRule := hPart before block after hTail
      rw [List.length_cons, Nat.cast_succ]
      exact hRule
  exact (hFirstPart.extend follows_first hFirst).extend follows_second hSecond

theorem spends_first : first.spends = [output] := spends_plainSpend paid_ne.2.2 _

theorem spends_second : second.spends = [change] := spends_plainSpend hashes.1 _

theorem spends_firstBlock : firstBlock.vtx.flatMap NetMessageTransaction.spends = [output] := by
  show filler.spends ++ (first.spends ++ []) = [output]
  rw [filler, spends_plainCoinbase, spends_first]
  rfl

theorem spends_secondBlock : secondBlock.vtx.flatMap NetMessageTransaction.spends = [change] := by
  show filler.spends ++ (second.spends ++ []) = [change]
  rw [filler, spends_plainCoinbase, spends_second]
  rfl

theorem vtx_of_mem_firstPart {block : Block} (hMem : block ∈ firstPart) : block.vtx = [paid] ∨ block.vtx = [filler] := by
  obtain ⟨hashPrevBlock, vtx, nNonce, hRow, rfl⟩ := mem_blocksOn hMem
  exact plain_of_mem_rows hRow

theorem spends_of_mem_firstPart {block : Block} (hMem : block ∈ [getGenesisBlock] ++ firstPart) :
    ∀ tx ∈ block.vtx, tx.spends = [] := by
  intro tx hTx
  rcases List.mem_append.mp hMem with hGenesis | hPart
  · rw [List.mem_singleton.mp hGenesis] at hTx
    rw [List.mem_singleton.mp hTx]
    rfl
  · rcases vtx_of_mem_firstPart hPart with hVtx | hVtx
    · rw [hVtx] at hTx
      rw [List.mem_singleton.mp hTx, paid, spends_plainCoinbase]
    · rw [hVtx] at hTx
      rw [List.mem_singleton.mp hTx, filler, spends_plainCoinbase]

theorem spendsOf_firstPart : spendsOf (txsOfChain ([getGenesisBlock] ++ firstPart)) = [] :=
  spendsOf_of_coinbases fun _ hMem => spends_of_mem_firstPart hMem

theorem spendsOf_chain : spendsOf (txsOfChain chain) = [output, change] := by
  rw [chain, spendsOf_append_singleton, spendsOf_append_singleton, spendsOf_firstPart, spends_firstBlock,
    spends_secondBlock]
  rfl

theorem valid_noRevival : ValidChain anyScript NoRevival chain := by
  refine valid ?_ (noRevival_of_distinct _ ?_) (noRevival_of_distinct _ ?_)
  · intro before block after hSplit
    have hMem : ∀ earlier ∈ [getGenesisBlock] ++ before ++ [block], earlier ∈ [getGenesisBlock] ++ firstPart := by
      intro earlier hEarlier
      rw [hSplit]
      simp only [List.mem_append, List.mem_cons] at hEarlier ⊢
      tauto
    apply noRevival_of_distinct
    intro pt hPt
    rw [← spendsOf_append_singleton, spendsOf_of_coinbases fun earlier hEarlier =>
      spends_of_mem_firstPart (hMem earlier hEarlier)] at hPt
    exact absurd hPt List.not_mem_nil
  · intro pt hPt tx hTx
    rw [spendsOf_firstPart, spends_firstBlock] at hPt
    cases List.mem_singleton.mp hPt
    rcases List.mem_pair.mp hTx with rfl | rfl
    · exact paid_ne.1.symm
    · exact hashes.2.1
  · intro pt hPt tx hTx
    rw [spendsOf_append_singleton, spendsOf_firstPart, spends_firstBlock, spends_secondBlock] at hPt
    rcases List.mem_pair.mp hPt with rfl | rfl
    · rcases List.mem_pair.mp hTx with rfl | rfl
      · exact paid_ne.1.symm
      · exact hashes.2.2.1
    · rcases List.mem_pair.mp hTx with rfl | rfl
      · exact hashes.2.2.2.1
      · exact hashes.2.2.2.2

end Payments

namespace Node

theorem spends_nodup_of_payments : ∃ node : Node, TipRun anyScript NoRevival node ∧
    spendsOf node.chainTxs = [Revival.output, Payments.change] ∧ (spendsOf node.chainTxs).Nodup := by
  obtain ⟨node, hRun, hHolds⟩ := exists_tipRun Payments.valid_noRevival
  have hTree : node.Tree := Run.tree hRun
  refine ⟨node, hRun, ?_, spends_nodup_of_noRevival hRun⟩
  rw [hTree.chainTxs_eq, hHolds.blocks]
  exact Payments.spendsOf_chain

/-- A repeated coinbase lets the same output be spent twice. -/
theorem exists_double_spend : ∃ (verifyScript : VerifyScript) (node : Node),
    TipRun verifyScript BlockRule.any node ∧ ¬ (spendsOf node.chainTxs).Nodup := by
  obtain ⟨node, hRun, hHolds⟩ := exists_tipRun Revival.valid_secondSpend
  refine ⟨anyScript, node, hRun, ?_⟩
  have hTree : node.Tree := Run.tree hRun
  rw [hTree.chainTxs_eq, hHolds.blocks]
  obtain ⟨txs, hTxs, -⟩ := exists_txsOfChain_append ([getGenesisBlock] ++ Revival.firstPart ++ [Revival.firstSpend])
    Revival.secondPart
  rw [txsOfChain_append_singleton, hTxs, txsOfChain_append_singleton]
  intro hNodup
  rw [spendsOf, List.flatMap_append, List.flatMap_append, List.flatMap_append] at hNodup
  refine (List.nodup_append.mp hNodup).2.2 Revival.output ?_ Revival.output (Revival.output_mem_spendsOf ..) rfl
  exact List.mem_append_left _ (List.mem_append_right _ (Revival.output_mem_spendsOf ..))

end Node

end BitcoinGpuMiner
