import BitcoinGpuMiner.Chain.Tree

/-! # The required work in a block tree

Every block of the tree was mined at the limit, so the required work is the limit whatever
the timestamps are, and `CheckBlock` depends on the block alone.
-/

namespace BitcoinGpuMiner

open Foundation

set_option autoImplicit false

theorem proofOfWorkLimit_eq : proofOfWorkLimit = 0x207fffff := by decide +kernel

/-- The part of `CheckProofOfWork` that does not look at the hash. -/
structure TargetInRange (nBits : UInt32) : Prop where
  positive : (setCompact nBits).negative = false
  nonzero : (setCompact nBits).target ≠ 0
  fits : (setCompact nBits).overflow = false
  limit : (setCompact nBits).target ≤ params.powLimit.toArith

theorem checkProofOfWork_iff (hash : Uint256) (nBits : UInt32) : checkProofOfWork hash nBits = true ↔
    TargetInRange nBits ∧ hash.toArith ≤ (setCompact nBits).target := by
  rw [checkProofOfWork]
  split
  case isTrue hBad =>
    constructor
    · intro hFalse
      cases hFalse
    · rintro ⟨hRange, -⟩
      simp [hRange.positive, hRange.nonzero, hRange.fits, Nat.not_lt.mpr hRange.limit] at hBad
  case isFalse hGood =>
    simp only [Bool.or_eq_true, decide_eq_true_eq, beq_iff_eq, not_or, Bool.not_eq_true, gt_iff_lt, Nat.not_lt] at hGood
    obtain ⟨⟨⟨hPositive, hNonzero⟩, hFits⟩, hLimit⟩ := hGood
    rw [decide_eq_true_eq]
    exact ⟨fun hMeets => ⟨⟨hPositive, hNonzero, hFits, hLimit⟩, hMeets⟩, fun hBoth => hBoth.2⟩

theorem checkProofOfWork_limit_iff (hash : Uint256) : checkProofOfWork hash proofOfWorkLimit = true ↔
    hash.toArith ≤ (setCompact proofOfWorkLimit).target := by
  have hRange : TargetInRange proofOfWorkLimit :=
    ⟨by decide +kernel, by decide +kernel, by decide +kernel, by decide +kernel⟩
  rw [checkProofOfWork_iff, and_iff_right hRange]

/-- What `CheckBlock` decides once the required work is known to be the limit. -/
def blockOk (block : Block) : Bool :=
  checkBlockContents block && block.nBits == proofOfWorkLimit && checkProofOfWork block.getHash block.nBits

theorem blockOk_iff (block : Block) : blockOk block = true ↔
    checkBlockContents block = true ∧ block.nBits = proofOfWorkLimit ∧
      checkProofOfWork block.getHash block.nBits = true := by
  rw [blockOk, Bool.and_eq_true, Bool.and_eq_true, beq_iff_eq, and_assoc]

namespace Node.Tree

variable {node : Node}

theorem skipLimitBlocks_eq (hTree : node.Tree) (fuel : Nat) {h : Uint256} {index : BlockIndex} {block : Block}
    (hEntry : node.entry h = some index) (hBlock : node.blocks[h]? = some block)
    (hFuel : index.height.toNat < fuel) :
    ∃ last, skipLimitBlocks node.blocks proofOfWorkLimit fuel block = .ok last ∧ last.nBits = proofOfWorkLimit := by
  -- induction on the fuel, which stays above the height
  induction fuel generalizing h index block with
  | zero => omega
  | succ fuel ih =>
    obtain ⟨stored, hStored, -, hPrevBlock, hBits⟩ := hTree.stored h index hEntry
    cases hStored.symm.trans hBlock
    by_cases hNull : block.hashPrevBlock.isNull
    · exact ⟨block, by simp [skipLimitBlocks, hNull], hBits⟩
    · have hNe : h ≠ params.hashGenesisBlock := by
        rintro rfl
        cases hBlock.symm.trans hTree.genesisStored
        exact hNull rfl
      obtain ⟨-, prev, hPrev, hHeight⟩ := hTree.parent h index hEntry hNe
      obtain ⟨prevBlock, hPrevStored, -⟩ := hTree.stored _ prev hPrev
      have hNonneg := hTree.nonneg _ prev hPrev
      obtain ⟨last, hLast, hLastBits⟩ := ih hPrev hPrevStored (by omega)
      refine ⟨last, ?_, hLastBits⟩
      rw [skipLimitBlocks, hPrevBlock, hPrevStored]
      simpa [hBits, ← hPrevBlock, hNull] using hLast

theorem getNextWorkRequired_eq (hTree : node.Tree) {active : BlockIndex} {lastBlock : Block}
    (hActive : node.tips.getActiveTip = some active) (hLast : node.blocks[active.hash]? = some lastBlock)
    (block : Block) : node.getNextWorkRequired active lastBlock block = .ok proofOfWorkLimit := by
  have hEntry := hTree.active_entry hActive
  obtain ⟨stored, hStored, -, -, hBits⟩ := hTree.stored _ active hEntry
  cases hStored.symm.trans hLast
  unfold getNextWorkRequired
  split
  case isTrue =>
    rw [powAllowMinDifficultyBlocks, if_pos rfl]
    split
    case isTrue => rfl
    case isFalse =>
      obtain ⟨last, hWalk, hLastBits⟩ := hTree.skipLimitBlocks_eq (node.walkFuel active.height) hEntry hLast
        (by unfold walkFuel; omega)
      rw [hWalk, Except.map, hLastBits]
  case isFalse => simp [calculateNextWorkRequired, powNoRetargeting, hBits]

/-- In a tree `CheckBlock` returns, and its answer depends on the block alone. -/
theorem checkBlock_eq (hTree : node.Tree) (block : Block) : node.checkBlock block = .ok (blockOk block) := by
  obtain ⟨active, hActive⟩ := hTree.exists_active
  obtain ⟨lastBlock, hLast, -, -, hBits⟩ := hTree.stored _ active (hTree.active_entry hActive)
  have hGet : node.getBlock active.hash = lastBlock := by rw [getBlock, hLast, Option.getD_some]
  have hNotNull : lastBlock.isNull = false := by
    rw [BlockHeader.isNull, hBits, proofOfWorkLimit_eq]
    rfl
  unfold checkBlock
  simp only [hActive, hGet, hNotNull, hTree.getNextWorkRequired_eq hActive hLast]
  by_cases hContents : checkBlockContents block
  · by_cases hWork : block.nBits = proofOfWorkLimit
    · simp [blockOk, hContents, hWork]
    · simp [blockOk, hContents, hWork]
  · simp [blockOk, hContents]

end Node.Tree

def genesisLedger : Ledger :=
  Ledger.empty.processTransactions getGenesisBlock.vtx params.hashGenesisBlock 0

namespace Node

theorem saveBlock_genesis : empty.saveBlock getGenesisBlock BlockIndex.empty true =
    some ({ empty with
      blocks := (∅ : HashMap Block).insert params.hashGenesisBlock getGenesisBlock
      blockIndex := (∅ : HashMap BlockIndex).insert params.hashGenesisBlock genesisIndex
      tips := BlockTipManager.empty.addTip genesisIndex }, genesisIndex) := by
  have hNull : BlockIndex.empty.isNull = true := by decide
  simp only [saveBlock, hNull, getHash_getGenesisBlock, bne_self_eq_false, Bool.and_false, if_true]
  rfl

/-- `Initialize` stores the genesis block, makes it the only tip and records its transaction. -/
theorem initial_eq : initial =
    { blocks := (∅ : HashMap Block).insert params.hashGenesisBlock getGenesisBlock
      blockIndex := (∅ : HashMap BlockIndex).insert params.hashGenesisBlock genesisIndex
      tips := BlockTipManager.empty.addTip genesisIndex
      ledger := genesisLedger
      orphanBlocks := []
      memPool := TXMemPool.empty.remove genesisTransaction.getHash } := by
  have hActive : empty.tips.getActiveTip = none := by decide
  rw [initial, initialised, hActive, saveBlock_genesis]
  rfl

theorem initial_entry (h : Uint256) :
    initial.entry h = if params.hashGenesisBlock = h then some genesisIndex else none := by
  rw [entry, initial_eq, lookup_insert]
  split
  case isTrue => rw [Option.map_some, genesisIndex, BlockIndex.core_make]
  case isFalse => simp

theorem initial_entry_cases {h : Uint256} {index : BlockIndex} (hEntry : initial.entry h = some index) :
    h = params.hashGenesisBlock ∧ index = genesisIndex := by
  rw [initial_entry] at hEntry
  split at hEntry
  case isTrue hEq =>
    cases hEntry
    exact ⟨hEq.symm, rfl⟩
  case isFalse => cases hEntry

theorem initial_tipMap : initial.tips.getBlockTipMap =
    (∅ : HashMap BlockIndex).insert params.hashGenesisBlock genesisIndex := by
  rw [initial_eq, BlockTipManager.getBlockTipMap_addTip]
  rfl

theorem initial_genesisStored : initial.blocks[params.hashGenesisBlock]? = some getGenesisBlock := by
  rw [initial_eq]
  exact lookup_insert_self ..

theorem initial_tree : initial.Tree where
  keyed h index hEntry := by
    obtain ⟨rfl, rfl⟩ := initial_entry_cases hEntry
    rfl
  stored h index hEntry := by
    obtain ⟨rfl, rfl⟩ := initial_entry_cases hEntry
    exact ⟨getGenesisBlock, initial_genesisStored, getHash_getGenesisBlock, rfl, proofOfWorkLimit_eq.symm⟩
  genesis := by rw [initial_entry, if_pos rfl]
  genesisStored := initial_genesisStored
  parent h index hEntry hNe := absurd (initial_entry_cases hEntry).1 hNe
  nonneg h index hEntry := by
    obtain ⟨rfl, rfl⟩ := initial_entry_cases hEntry
    exact Int.le_refl 0
  tipEntry h tip hTip := by
    rw [initial_tipMap] at hTip
    rcases (lookup_insert_eq_some_iff ..).mp hTip with ⟨rfl, rfl⟩ | ⟨-, hNone⟩
    · rw [initial_entry, if_pos rfl]
    · simp at hNone
  genesisTip := by
    rw [initial_tipMap]
    exact lookup_insert_self ..

theorem initial_activeTip : initial.tips.getActiveTip = some genesisIndex := by
  obtain ⟨active, hActive⟩ := initial_tree.exists_active
  rw [hActive, (initial_entry_cases (initial_tree.active_entry hActive)).2]

end Node

end BitcoinGpuMiner
