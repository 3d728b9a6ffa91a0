import BitcoinGpuMiner.Chain.Tips
import BitcoinGpuMiner.Model.SaveBlock

/-! # The block tree

`Node.Tree` is what every completed call keeps: the index is a tree rooted at the genesis
block, each entry has its block, and the tips are entries of the index. Next pointers play
no part in it, so entries are compared without them.
-/

namespace BitcoinGpuMiner

open Foundation

set_option autoImplicit false

/-- An index entry without its next pointer. -/
def BlockIndex.core (index : BlockIndex) : BlockIndex := { index with hashNextBlock := Uint256.null }

@[simp] theorem BlockIndex.core_make (height : Int) (hash hashPrevBlock : Uint256) :
    (BlockIndex.make height hash hashPrevBlock).core = BlockIndex.make height hash hashPrevBlock := rfl

@[simp] theorem BlockIndex.core_height (index : BlockIndex) : index.core.height = index.height := rfl

@[simp] theorem BlockIndex.core_link (index : BlockIndex) (next : Uint256) :
    BlockIndex.core { index with hashNextBlock := next } = index.core := rfl

def genesisIndex : BlockIndex := BlockIndex.make 0 params.hashGenesisBlock Uint256.null

namespace Node

/-- The index entry of a hash, up to its next pointer. -/
def entry (node : Node) (hash : Uint256) : Option BlockIndex := node.blockIndex[hash]?.map BlockIndex.core

theorem entry_eq_none_iff (node : Node) (hash : Uint256) :
    node.entry hash = none ↔ node.blockIndex[hash]? = none := Option.map_eq_none_iff

theorem entry_eq_some_iff (node : Node) (hash : Uint256) (index : BlockIndex) :
    node.entry hash = some index ↔ ∃ full, node.blockIndex[hash]? = some full ∧ full.core = index :=
  Option.map_eq_some_iff

structure Tree (node : Node) : Prop where
  keyed : ∀ h index, node.entry h = some index → index.hash = h
  stored : ∀ h index, node.entry h = some index → ∃ block : Block, node.blocks[h]? = some block ∧
    block.getHash = h ∧ block.hashPrevBlock = index.hashPrevBlock ∧ block.nBits = proofOfWorkLimit
  genesis : node.entry params.hashGenesisBlock = some genesisIndex
  genesisStored : node.blocks[params.hashGenesisBlock]? = some getGenesisBlock
  parent : ∀ h index, node.entry h = some index → h ≠ params.hashGenesisBlock →
    index.hashPrevBlock ≠ Uint256.null ∧
      ∃ prev, node.entry index.hashPrevBlock = some prev ∧ index.height = prev.height + 1
  nonneg : ∀ h index, node.entry h = some index → 0 ≤ index.height
  tipEntry : ∀ (h : Uint256) (tip : BlockIndex), node.tips.getBlockTipMap[h]? = some tip → node.entry h = some tip
  genesisTip : node.tips.getBlockTipMap[params.hashGenesisBlock]? = some genesisIndex

namespace Tree

variable {node : Node}

theorem tipsKeyed (hTree : node.Tree) : BlockTipManager.Keyed node.tips.getBlockTipMap :=
  fun h tip hTip => hTree.keyed h tip (hTree.tipEntry h tip hTip)

theorem exists_active (hTree : node.Tree) : ∃ active, node.tips.getActiveTip = some active :=
  BlockTipManager.getActiveTip_isSome hTree.genesisTip

theorem isActive (hTree : node.Tree) {active : BlockIndex} (hActive : node.tips.getActiveTip = some active) :
    BlockTipManager.IsActive node.tips.getBlockTipMap active :=
  (BlockTipManager.getActiveTip_eq_some_iff hTree.tipsKeyed active).mp hActive

theorem active_entry (hTree : node.Tree) {active : BlockIndex}
    (hActive : node.tips.getActiveTip = some active) : node.entry active.hash = some active :=
  hTree.tipEntry _ _ (hTree.isActive hActive).entry

theorem height_eq_zero_iff (hTree : node.Tree) {h : Uint256} {index : BlockIndex}
    (hEntry : node.entry h = some index) : index.height = 0 ↔ h = params.hashGenesisBlock := by
  constructor
  · intro hZero
    apply Decidable.byContradiction
    intro hNe
    obtain ⟨-, prev, hPrev, hHeight⟩ := hTree.parent h index hEntry hNe
    have := hTree.nonneg _ prev hPrev
    omega
  · rintro rfl
    cases hEntry.symm.trans hTree.genesis
    rfl

/-- Induction along the parent links, from the genesis block up. -/
@[elab_as_elim] theorem entry_induction (hTree : node.Tree) {motive : Uint256 → BlockIndex → Prop}
    (hGenesis : motive params.hashGenesisBlock genesisIndex)
    (hStep : ∀ h index prev, node.entry h = some index → h ≠ params.hashGenesisBlock →
      node.entry index.hashPrevBlock = some prev → index.height = prev.height + 1 →
      motive index.hashPrevBlock prev → motive h index)
    {h : Uint256} {index : BlockIndex} (hEntry : node.entry h = some index) : motive h index := by
  have hNonneg := hTree.nonneg h index hEntry
  generalize hHeight : index.height.toNat = n
  induction n generalizing h index with
  | zero =>
    obtain rfl := (hTree.height_eq_zero_iff hEntry).mp (by omega)
    cases hEntry.symm.trans hTree.genesis
    exact hGenesis
  | succ n ih =>
    have hNe : h ≠ params.hashGenesisBlock := by
      intro hEq
      have := (hTree.height_eq_zero_iff hEntry).mpr hEq
      omega
    obtain ⟨-, prev, hPrev, hSucc⟩ := hTree.parent h index hEntry hNe
    exact hStep h index prev hEntry hNe hPrev hSucc (ih hPrev (hTree.nonneg _ prev hPrev) (by omega))

end Tree

/-- The entry `SaveBlock` makes for a block whose parent has a hash. -/
def newIndex (block : Block) (prev : BlockIndex) : BlockIndex :=
  BlockIndex.make (prev.height + 1) block.getHash block.hashPrevBlock

@[simp] theorem newIndex_hash (block : Block) (prev : BlockIndex) : (newIndex block prev).hash = block.getHash := rfl

@[simp] theorem newIndex_height (block : Block) (prev : BlockIndex) :
    (newIndex block prev).height = prev.height + 1 := rfl

@[simp] theorem newIndex_hashPrevBlock (block : Block) (prev : BlockIndex) :
    (newIndex block prev).hashPrevBlock = block.hashPrevBlock := rfl

/-- The node `SaveBlock` leaves behind for such a block. -/
def withBlock (node : Node) (block : Block) (prev : BlockIndex) (updateOrCreateTip : Bool) : Node :=
  { node with
    blocks := node.blocks.insert block.getHash block
    blockIndex := (node.blockIndex.insert prev.hash { prev with hashNextBlock := block.getHash }).insert
      block.getHash (newIndex block prev)
    tips := if updateOrCreateTip then node.tips.updateTip (newIndex block prev) else node.tips }

theorem saveBlock_of_ne_null (node : Node) (block : Block) {prev : BlockIndex} (updateOrCreateTip : Bool)
    (hPrev : prev.hash ≠ Uint256.null) :
    node.saveBlock block prev updateOrCreateTip =
      some (node.withBlock block prev updateOrCreateTip, newIndex block prev) := by
  have hNull : prev.isNull = false := by
    rw [BlockIndex.isNull, Bool.eq_false_iff, Ne, Uint256.isNull_iff]
    exact hPrev
  simp [saveBlock, hNull, withBlock, newIndex]

theorem saveBlock_of_null (node : Node) {block : Block} {prev : BlockIndex} (updateOrCreateTip : Bool)
    (hPrev : prev.hash = Uint256.null) (hGenesis : block.getHash ≠ params.hashGenesisBlock) :
    node.saveBlock block prev updateOrCreateTip = none := by
  have hNull : prev.isNull = true := (Uint256.isNull_iff _).mpr hPrev
  simp [saveBlock, hNull, hGenesis]

@[simp] theorem withBlock_ledger (node : Node) (block : Block) (prev : BlockIndex) (tip : Bool) :
    (node.withBlock block prev tip).ledger = node.ledger := rfl

theorem withBlock_blockIndex (node : Node) (block : Block) (prev : BlockIndex) (tip : Bool) :
    (node.withBlock block prev tip).blockIndex =
      (node.blockIndex.insert prev.hash { prev with hashNextBlock := block.getHash }).insert
        block.getHash (newIndex block prev) := rfl

theorem withBlock_blocks (node : Node) (block : Block) (prev : BlockIndex) (tip : Bool) (h : Uint256) :
    (node.withBlock block prev tip).blocks[h]? = if block.getHash = h then some block else node.blocks[h]? :=
  lookup_insert ..

/-- Saving a block adds its own entry and changes no other, up to next pointers. -/
theorem withBlock_entry (node : Node) (block : Block) {prev : BlockIndex} (tip : Bool)
    (hPrev : node.blockIndex[prev.hash]? = some prev) (h : Uint256) :
    (node.withBlock block prev tip).entry h =
      if block.getHash = h then some (newIndex block prev) else node.entry h := by
  rw [entry, withBlock_blockIndex, lookup_insert, lookup_insert]
  split
  case isTrue => rw [Option.map_some, newIndex, BlockIndex.core_make]
  case isFalse =>
    split
    case isTrue hEq => rw [entry, ← hEq, hPrev, Option.map_some, Option.map_some, BlockIndex.core_link]
    case isFalse => rfl

theorem withBlock_true (node : Node) (block : Block) (prev : BlockIndex) :
    node.withBlock block prev true =
      { node.withBlock block prev false with tips := node.tips.addTip (newIndex block prev) } := rfl

namespace Tree

variable {node : Node}

/-- The invariant reads the index, the block store and the tips only. -/
theorem congr {node' : Node} (hTree : node.Tree) (hIndex : node'.blockIndex = node.blockIndex)
    (hBlocks : node'.blocks = node.blocks) (hTips : node'.tips = node.tips) : node'.Tree := by
  have hEntry : node'.entry = node.entry := by
    funext h
    rw [entry, entry, hIndex]
  constructor
  · rw [hEntry]
    exact hTree.keyed
  · rw [hEntry, hBlocks]
    exact hTree.stored
  · rw [hEntry]
    exact hTree.genesis
  · rw [hBlocks]
    exact hTree.genesisStored
  · rw [hEntry]
    exact hTree.parent
  · rw [hEntry]
    exact hTree.nonneg
  · rw [hEntry, hTips]
    exact hTree.tipEntry
  · rw [hTips]
    exact hTree.genesisTip

theorem addTip (hTree : node.Tree) {index : BlockIndex} (hEntry : node.entry index.hash = some index) :
    Tree { node with tips := node.tips.addTip index } where
  keyed := hTree.keyed
  stored := hTree.stored
  genesis := hTree.genesis
  genesisStored := hTree.genesisStored
  parent := hTree.parent
  nonneg := hTree.nonneg
  tipEntry h tip hTip := by
    rw [BlockTipManager.getBlockTipMap_addTip] at hTip
    rcases (lookup_insert_eq_some_iff ..).mp hTip with ⟨rfl, rfl⟩ | ⟨-, hOld⟩
    · exact hEntry
    · exact hTree.tipEntry h tip hOld
  genesisTip := by
    rw [BlockTipManager.getBlockTipMap_addTip, lookup_insert]
    split
    case isTrue hEq =>
      rw [hEq] at hEntry
      exact hEntry.symm.trans hTree.genesis
    case isFalse => exact hTree.genesisTip

section WithBlock

variable {block : Block} {prev : BlockIndex}

theorem hash_of_parent (hTree : node.Tree) (hParent : node.blockIndex[block.hashPrevBlock]? = some prev) :
    prev.hash = block.hashPrevBlock :=
  hTree.keyed _ prev.core ((entry_eq_some_iff ..).mpr ⟨prev, hParent, rfl⟩)

theorem entry_withBlock (hTree : node.Tree) (hParent : node.blockIndex[block.hashPrevBlock]? = some prev)
    (tip : Bool) (h : Uint256) : (node.withBlock block prev tip).entry h =
      if block.getHash = h then some (newIndex block prev) else node.entry h :=
  withBlock_entry node block tip (by rw [hTree.hash_of_parent hParent, hParent]) h

theorem entry_withBlock_cases (hTree : node.Tree) (hParent : node.blockIndex[block.hashPrevBlock]? = some prev)
    {tip : Bool} {h : Uint256} {index : BlockIndex} (hEntry : (node.withBlock block prev tip).entry h = some index) :
    (h = block.getHash ∧ index = newIndex block prev) ∨ (block.getHash ≠ h ∧ node.entry h = some index) := by
  rw [hTree.entry_withBlock hParent] at hEntry
  split at hEntry
  case isTrue hEq =>
    cases hEntry
    exact .inl ⟨hEq.symm, rfl⟩
  case isFalse hNe => exact .inr ⟨hNe, hEntry⟩

theorem entry_withBlock_of_entry (hTree : node.Tree)
    (hParent : node.blockIndex[block.hashPrevBlock]? = some prev) (hNew : node.entry block.getHash = none)
    {tip : Bool} {h : Uint256} {index : BlockIndex} (hEntry : node.entry h = some index) :
    (node.withBlock block prev tip).entry h = some index := by
  rw [hTree.entry_withBlock hParent, if_neg, hEntry]
  rintro rfl
  cases hNew.symm.trans hEntry

theorem withBlock_false (hTree : node.Tree) (hParent : node.blockIndex[block.hashPrevBlock]? = some prev)
    (hPrev : prev.hash ≠ Uint256.null) (hNew : node.entry block.getHash = none)
    (hBits : block.nBits = proofOfWorkLimit) : (node.withBlock block prev false).Tree where
  keyed h index hEntry := by
    rcases hTree.entry_withBlock_cases hParent hEntry with ⟨rfl, rfl⟩ | ⟨-, hOld⟩
    · rfl
    · exact hTree.keyed h index hOld
  stored h index hEntry := by
    rw [withBlock_blocks]
    rcases hTree.entry_withBlock_cases hParent hEntry with ⟨rfl, rfl⟩ | ⟨hNe, hOld⟩
    · exact ⟨block, if_pos rfl, rfl, rfl, hBits⟩
    · rw [if_neg hNe]
      exact hTree.stored h index hOld
  genesis := hTree.entry_withBlock_of_entry hParent hNew hTree.genesis
  genesisStored := by
    rw [withBlock_blocks, if_neg, hTree.genesisStored]
    intro hEq
    rw [hEq, hTree.genesis] at hNew
    cases hNew
  parent h index hEntry hNe := by
    rcases hTree.entry_withBlock_cases hParent hEntry with ⟨rfl, rfl⟩ | ⟨-, hOld⟩
    · refine ⟨?_, prev.core, ?_, rfl⟩
      · rw [hTree.hash_of_parent hParent] at hPrev
        exact hPrev
      · exact hTree.entry_withBlock_of_entry hParent hNew ((entry_eq_some_iff ..).mpr ⟨prev, hParent, rfl⟩)
    · obtain ⟨hNull, parent, hOldParent, hHeight⟩ := hTree.parent h index hOld hNe
      exact ⟨hNull, parent, hTree.entry_withBlock_of_entry hParent hNew hOldParent, hHeight⟩
  nonneg h index hEntry := by
    rcases hTree.entry_withBlock_cases hParent hEntry with ⟨rfl, rfl⟩ | ⟨-, hOld⟩
    · have hPrevNonneg := hTree.nonneg _ prev.core ((entry_eq_some_iff ..).mpr ⟨prev, hParent, rfl⟩)
      exact Int.le_add_one hPrevNonneg
    · exact hTree.nonneg h index hOld
  tipEntry h tip hTip := hTree.entry_withBlock_of_entry hParent hNew (hTree.tipEntry h tip hTip)
  genesisTip := hTree.genesisTip

theorem withBlock_true (hTree : node.Tree) (hParent : node.blockIndex[block.hashPrevBlock]? = some prev)
    (hPrev : prev.hash ≠ Uint256.null) (hNew : node.entry block.getHash = none)
    (hBits : block.nBits = proofOfWorkLimit) : (node.withBlock block prev true).Tree := by
  rw [Node.withBlock_true]
  apply (hTree.withBlock_false hParent hPrev hNew hBits).addTip
  exact (hTree.entry_withBlock hParent false _).trans (if_pos rfl)

end WithBlock

end Tree

end Node

end BitcoinGpuMiner
