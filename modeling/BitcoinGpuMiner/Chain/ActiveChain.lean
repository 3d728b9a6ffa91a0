import BitcoinGpuMiner.Chain.Reachable
import BitcoinGpuMiner.Ledger.Replay

/-! # The active chain

The chain of a block is read off the index by walking to the genesis block. It does not
change when blocks are added elsewhere, and it grows by one when a block is added on top.
-/

namespace BitcoinGpuMiner

open Foundation

set_option autoImplicit false

namespace Node

/-- The entries from the genesis block to `hash`, oldest first. -/
def chainTo (node : Node) : Nat → Uint256 → List BlockIndex
  | 0, _ => []
  | fuel + 1, hash =>
    match node.entry hash with
    | none => []
    | some index =>
      if index.hashPrevBlock.isNull then [index] else chainTo node fuel index.hashPrevBlock ++ [index]

/-- The chain that ends at the active tip. -/
def activeChain (node : Node) : List BlockIndex :=
  match node.tips.getActiveTip with
  | none => []
  | some tip => node.chainTo (tip.height.toNat + 1) tip.hash

/-- The transactions of an indexed block, with their place in the chain. -/
def txsOf (node : Node) (index : BlockIndex) : List TxIdx :=
  (node.getBlock index.hash).vtx.map fun tx => ⟨index.hash, index.height, tx⟩

def activeBlocks (node : Node) : List Block := node.activeChain.map fun index => node.getBlock index.hash

/-- The transactions of the active chain in order. -/
def chainTxs (node : Node) : List TxIdx := node.activeChain.flatMap node.txsOf

theorem activeChain_of_active {node : Node} {active : BlockIndex} (hActive : node.tips.getActiveTip = some active) :
    node.activeChain = node.chainTo (active.height.toNat + 1) active.hash := by
  rw [activeChain, hActive]

namespace Tree

variable {node node' : Node}

theorem chainTo_genesis (hTree : node.Tree) (fuel : Nat) :
    node.chainTo (fuel + 1) params.hashGenesisBlock = [genesisIndex] := by
  rw [chainTo, hTree.genesis]
  rfl

theorem chainTo_parent (hTree : node.Tree) {h : Uint256} {index prev : BlockIndex} (hEntry : node.entry h = some index)
    (hNe : h ≠ params.hashGenesisBlock) (hPrev : node.entry index.hashPrevBlock = some prev) :
    node.chainTo (index.height.toNat + 1) h =
      node.chainTo (prev.height.toNat + 1) index.hashPrevBlock ++ [index] := by
  obtain ⟨hNull, parent, hParent, hHeight⟩ := hTree.parent h index hEntry hNe
  cases hParent.symm.trans hPrev
  have hNonneg := hTree.nonneg _ prev hPrev
  have hIsNull : index.hashPrevBlock.isNull = false := by
    rw [Bool.eq_false_iff, Ne, Uint256.isNull_iff]
    exact hNull
  have hFuel : index.height.toNat = prev.height.toNat + 1 := by omega
  rw [chainTo, hEntry, hFuel]
  simp only [hIsNull, Bool.false_eq_true, if_false]

theorem entry_of_mem_chainTo (hTree : node.Tree) (fuel : Nat) (h : Uint256) :
    ∀ index ∈ node.chainTo fuel h, node.entry index.hash = some index := by
  induction fuel generalizing h with
  | zero => simp [chainTo]
  | succ fuel ih =>
    intro index hMem
    rw [chainTo] at hMem
    split at hMem
    · cases hMem
    case h_2 top hTop =>
    have hSelf : node.entry top.hash = some top := by rw [hTree.keyed h top hTop, hTop]
    split at hMem
    · rwa [List.mem_singleton.mp hMem]
    · rcases List.mem_append.mp hMem with hMem | hMem
      · exact ih _ index hMem
      · rwa [List.mem_singleton.mp hMem]

/-- Chains survive every change that keeps the entries of the tree. -/
theorem chainTo_eq_of_entries (hTree : node.Tree)
    (hKeep : ∀ h index, node.entry h = some index → node'.entry h = some index) (fuel : Nat) {h : Uint256}
    {index : BlockIndex} (hEntry : node.entry h = some index) : node'.chainTo fuel h = node.chainTo fuel h := by
  induction fuel generalizing h index with
  | zero => rfl
  | succ fuel ih =>
    rw [chainTo, chainTo, hEntry, hKeep h index hEntry]
    dsimp only
    split
    case isTrue => rfl
    case isFalse hNull =>
      have hNe : h ≠ params.hashGenesisBlock := by
        rintro rfl
        cases hEntry.symm.trans hTree.genesis
        exact hNull rfl
      obtain ⟨-, prev, hPrev, -⟩ := hTree.parent h index hEntry hNe
      rw [ih hPrev]

/-- Heights count positions in a chain, so a chain of entries and its blocks have the same
transactions. -/
theorem txsOf_chainTo (hTree : node.Tree) {h : Uint256} {index : BlockIndex} (hEntry : node.entry h = some index) :
    (node.chainTo (index.height.toNat + 1) h).length = index.height + 1 ∧
      (node.chainTo (index.height.toNat + 1) h).flatMap node.txsOf =
        txsOfChain ((node.chainTo (index.height.toNat + 1) h).map fun index => node.getBlock index.hash) := by
  refine hTree.entry_induction ?_ ?_ hEntry
  · rw [hTree.chainTo_genesis]
    refine ⟨rfl, ?_⟩
    have hBlock : node.getBlock genesisIndex.hash = getGenesisBlock :=
      congrArg (Option.getD · Block.null) hTree.genesisStored
    simp only [List.flatMap_singleton, List.map_singleton, txsOf, hBlock]
    rw [txsOfChain, List.zipIdx_singleton, List.flatMap_singleton, blockTxs, getHash_getGenesisBlock]
    rfl
  · intro h index prev hEntry hNe hPrev hSucc ih
    obtain ⟨hLength, hTxs⟩ := ih
    obtain ⟨block, hBlock, hHash, -⟩ := hTree.stored h index hEntry
    have hGet : node.getBlock index.hash = block := by
      rw [hTree.keyed h index hEntry, getBlock, hBlock, Option.getD_some]
    rw [hTree.chainTo_parent hEntry hNe hPrev]
    refine ⟨by rw [List.length_append, List.length_singleton]; omega, ?_⟩
    rw [List.flatMap_append, List.map_append, List.map_singleton, txsOfChain_append_singleton, List.length_map,
      ← hTxs, List.flatMap_singleton, txsOf, hGet, blockTxs, hHash, hTree.keyed h index hEntry, hSucc, hLength]

theorem eq_or_height_lt_of_mem_chainTo (hTree : node.Tree) {h : Uint256} {index : BlockIndex}
    (hEntry : node.entry h = some index) :
    ∀ other ∈ node.chainTo (index.height.toNat + 1) h, other = index ∨ other.height < index.height := by
  refine hTree.entry_induction ?_ ?_ hEntry
  · intro other hOther
    rw [hTree.chainTo_genesis] at hOther
    exact .inl (List.mem_singleton.mp hOther)
  · intro h index prev hEntry hNe hPrev hSucc ih other hOther
    rw [hTree.chainTo_parent hEntry hNe hPrev, List.mem_append, List.mem_singleton] at hOther
    rcases hOther with hBelow | rfl
    · rcases ih other hBelow with rfl | hLt <;> exact .inr (by omega)
    · exact .inl rfl

theorem getLast?_chainTo {h : Uint256} {index : BlockIndex} (hEntry : node.entry h = some index) (fuel : Nat) :
    (node.chainTo (fuel + 1) h).getLast? = some index := by
  rw [chainTo, hEntry]
  dsimp only
  split <;> simp

theorem genesis_mem_chainTo (hTree : node.Tree) {h : Uint256} {index : BlockIndex}
    (hEntry : node.entry h = some index) : genesisIndex ∈ node.chainTo (index.height.toNat + 1) h := by
  refine hTree.entry_induction ?_ ?_ hEntry
  · rw [hTree.chainTo_genesis]
    exact List.mem_singleton_self _
  · intro h index prev hEntry hNe hPrev hSucc ih
    rw [hTree.chainTo_parent hEntry hNe hPrev]
    exact List.mem_append_left _ ih

end Tree

/-- The active chain reads the index and the tips only. -/
theorem activeChain_congr {node node' : Node} (hIndex : node'.blockIndex = node.blockIndex)
    (hTips : node'.tips = node.tips) : node'.activeChain = node.activeChain := by
  have hEntry : node'.entry = node.entry := by
    funext h
    rw [entry, entry, hIndex]
  have hChain : node'.chainTo = node.chainTo := by
    funext fuel h
    induction fuel generalizing h with
    | zero => rfl
    | succ fuel ih => simp only [chainTo, hEntry, ih]
  rw [activeChain, activeChain, hTips, hChain]

theorem activeBlocks_congr {node node' : Node} (hIndex : node'.blockIndex = node.blockIndex)
    (hBlocks : node'.blocks = node.blocks) (hTips : node'.tips = node.tips) :
    node'.activeBlocks = node.activeBlocks := by
  have hGet : node'.getBlock = node.getBlock := by
    funext h
    rw [getBlock, getBlock, hBlocks]
  rw [activeBlocks, activeBlocks, activeChain_congr hIndex hTips, hGet]

section WithBlock

variable {node : Node} {block : Block} {prev active : BlockIndex}

theorem getBlock_withBlock_self (tip : Bool) : (node.withBlock block prev tip).getBlock block.getHash = block := by
  rw [getBlock, withBlock_blocks, if_pos rfl, Option.getD_some]

theorem getBlock_withBlock_ne (tip : Bool) {h : Uint256} (hNe : block.getHash ≠ h) :
    (node.withBlock block prev tip).getBlock h = node.getBlock h := by
  rw [getBlock, withBlock_blocks, if_neg hNe, getBlock]

namespace Tree

theorem activeTip_withBlock (hTree : node.Tree) (hCandidate : node.Candidate block prev active) :
    (node.withBlock block prev true).tips.getActiveTip =
      some (if BlockTipManager.Beats (newIndex block prev) active then newIndex block prev else active) := by
  refine BlockTipManager.getActiveTip_addTip hTree.tipsKeyed hCandidate.active ?_
  cases hTip : node.tips.getBlockTipMap[(newIndex block prev).hash]? with
  | none => rfl
  | some tip => cases hCandidate.new.symm.trans (hTree.tipEntry _ tip hTip)

theorem chainTo_withBlock (hTree : node.Tree) (hCandidate : node.Candidate block prev active) (tip : Bool)
    (fuel : Nat) {h : Uint256} {index : BlockIndex} (hEntry : node.entry h = some index) :
    (node.withBlock block prev tip).chainTo fuel h = node.chainTo fuel h :=
  hTree.chainTo_eq_of_entries
    (fun _ _ hOld => hTree.entry_withBlock_of_entry hCandidate.parent hCandidate.new hOld) fuel hEntry

theorem chainTo_withBlock_new (hTree : node.Tree) (hCandidate : node.Candidate block prev active)
    (hNull : prev.hash ≠ Uint256.null) (hBits : block.nBits = proofOfWorkLimit) (tip : Bool) :
    (node.withBlock block prev tip).chainTo ((prev.height + 1).toNat + 1) block.getHash =
      node.chainTo (prev.height.toNat + 1) block.hashPrevBlock ++ [newIndex block prev] := by
  have hTree' := hTree.withBlock hCandidate hNull hBits tip
  have hEntry : (node.withBlock block prev tip).entry block.getHash = some (newIndex block prev) :=
    (hTree.entry_withBlock hCandidate.parent tip _).trans (if_pos rfl)
  have hParent : (node.withBlock block prev tip).entry (newIndex block prev).hashPrevBlock = some prev.core :=
    hTree.entry_withBlock_of_entry hCandidate.parent hCandidate.new (candidate_entry hCandidate)
  have hChain := hTree'.chainTo_parent hEntry (hTree.ne_genesis_of_new hCandidate.new) hParent
  rw [newIndex_hashPrevBlock, newIndex_height, BlockIndex.core_height,
    hTree.chainTo_withBlock hCandidate tip _ (candidate_entry hCandidate)] at hChain
  exact hChain

theorem map_getBlock_withBlock (hTree : node.Tree) (hCandidate : node.Candidate block prev active) (tip : Bool)
    (fuel : Nat) (h : Uint256) :
    (node.chainTo fuel h).map (fun index => (node.withBlock block prev tip).getBlock index.hash) =
      (node.chainTo fuel h).map fun index => node.getBlock index.hash := by
  apply List.map_congr_left
  intro index hMem
  exact getBlock_withBlock_ne tip (hCandidate.hash_ne (hTree.entry_of_mem_chainTo fuel h index hMem))

theorem activeBlocks_extend (hTree : node.Tree) (hCandidate : node.Candidate block prev active)
    (hTop : block.hashPrevBlock = active.hash) (hNull : prev.hash ≠ Uint256.null)
    (hBits : block.nBits = proofOfWorkLimit) :
    (node.withBlock block prev true).activeBlocks = node.activeBlocks ++ [block] := by
  have hCore := hTree.prev_core_eq_active hCandidate hTop
  have hHeight : prev.height = active.height := by rw [← hCore, BlockIndex.core_height]
  have hBeats : BlockTipManager.Beats (newIndex block prev) active :=
    .inl (by rw [newIndex_height]; omega)
  have hActive := hTree.activeTip_withBlock hCandidate
  rw [if_pos hBeats] at hActive
  rw [activeBlocks, activeBlocks, activeChain_of_active hActive, activeChain_of_active hCandidate.active,
    newIndex_hash, newIndex_height, hTree.chainTo_withBlock_new hCandidate hNull hBits, hTop, hHeight,
    List.map_append, List.map_singleton, hTree.map_getBlock_withBlock hCandidate, newIndex_hash,
    getBlock_withBlock_self]

theorem activeBlocks_branch (hTree : node.Tree) (hCandidate : node.Candidate block prev active)
    (hNot : ¬ BlockTipManager.Beats (newIndex block prev) active) :
    (node.withBlock block prev true).activeBlocks = node.activeBlocks := by
  have hActive := hTree.activeTip_withBlock hCandidate
  rw [if_neg hNot] at hActive
  rw [activeBlocks, activeBlocks, activeChain_of_active hActive, activeChain_of_active hCandidate.active,
    hTree.chainTo_withBlock hCandidate true _ (hTree.active_entry hCandidate.active),
    hTree.map_getBlock_withBlock hCandidate]

end Tree

end WithBlock

namespace Tree

variable {node : Node} {active : BlockIndex}

theorem length_activeBlocks (hTree : node.Tree) (hActive : node.tips.getActiveTip = some active) :
    (node.activeBlocks.length : Int) = active.height + 1 := by
  rw [activeBlocks, List.length_map, activeChain_of_active hActive]
  exact (hTree.txsOf_chainTo (hTree.active_entry hActive)).1

theorem chainTxs_eq (hTree : node.Tree) : node.chainTxs = txsOfChain node.activeBlocks := by
  obtain ⟨active, hActive⟩ := hTree.exists_active
  rw [chainTxs, activeBlocks, activeChain_of_active hActive]
  exact (hTree.txsOf_chainTo (hTree.active_entry hActive)).2

theorem getHash_getBlock (hTree : node.Tree) {index : BlockIndex} (hEntry : node.entry index.hash = some index) :
    (node.getBlock index.hash).getHash = index.hash := by
  obtain ⟨block, hBlock, hHash, -⟩ := hTree.stored _ index hEntry
  rw [getBlock, hBlock, Option.getD_some, hHash]

theorem getLast_activeBlocks (hTree : node.Tree) (hActive : node.tips.getActiveTip = some active) :
    node.activeBlocks.getLast?.map Block.getHash = some active.hash := by
  have hEntry := hTree.active_entry hActive
  rw [activeBlocks, activeChain_of_active hActive, List.getLast?_map, getLast?_chainTo hEntry, Option.map_some,
    Option.map_some, hTree.getHash_getBlock hEntry]

theorem entry_of_mem_activeBlocks (hTree : node.Tree) {hash : Uint256}
    (hMem : hash ∈ node.activeBlocks.map Block.getHash) : node.entry hash ≠ none := by
  obtain ⟨active, hActive⟩ := hTree.exists_active
  rw [activeBlocks, activeChain_of_active hActive, List.map_map] at hMem
  obtain ⟨index, hIndex, rfl⟩ := List.mem_map.mp hMem
  have hEntry := hTree.entry_of_mem_chainTo _ _ index hIndex
  rw [Function.comp_apply, hTree.getHash_getBlock hEntry, hEntry]
  simp

end Tree

theorem initial_activeBlocks : initial.activeBlocks = [getGenesisBlock] := by
  have hBlock : initial.getBlock genesisIndex.hash = getGenesisBlock :=
    congrArg (Option.getD · Block.null) initial_genesisStored
  rw [activeBlocks, activeChain_of_active initial_activeTip]
  refine (congrArg (List.map _) (initial_tree.chainTo_genesis _)).trans ?_
  rw [List.map_singleton, hBlock]

end Node

end BitcoinGpuMiner
