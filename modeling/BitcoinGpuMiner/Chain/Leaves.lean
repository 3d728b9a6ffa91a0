import BitcoinGpuMiner.Chain.PlainBlock

/-! # The tip map and the leaves of the tree

`UpdateTip` erases the parent from a copy of the map, so no tip is ever removed and the tips are the
leaves only as long as the genesis block is alone.
-/

namespace BitcoinGpuMiner

open Foundation

set_option autoImplicit false

/-- What `UpdateTip` is for: the tip takes the place of its parent. -/
def BlockTipManager.Replaces (manager : BlockTipManager) (tip : BlockIndex) : Prop :=
  ∀ h : Uint256, (manager.updateTip tip).getBlockTipMap[h]? =
    if tip.hash = h then some tip else if tip.hashPrevBlock = h then none else manager.getBlockTipMap[h]?

theorem BlockTipManager.replaces_iff (manager : BlockTipManager) (tip : BlockIndex) :
    manager.Replaces tip ↔ tip.hashPrevBlock = tip.hash ∨ manager.getBlockTipMap[tip.hashPrevBlock]? = none := by
  have hUpdated : ∀ h : Uint256, (manager.updateTip tip).getBlockTipMap[h]? =
      if tip.hash = h then some tip else manager.getBlockTipMap[h]? := by
    intro h
    rw [updateTip_eq_addTip, getBlockTipMap_addTip, lookup_insert]
  constructor
  · intro hReplaces
    rcases Decidable.em (tip.hashPrevBlock = tip.hash) with hSelf | hOther
    · exact .inl hSelf
    · have hParent := hReplaces tip.hashPrevBlock
      rw [hUpdated, if_neg (Ne.symm hOther), if_neg (Ne.symm hOther), if_pos rfl] at hParent
      exact .inr hParent
  · intro hParent h
    rw [hUpdated]
    split
    case isTrue => rfl
    case isFalse hNe =>
      split
      case isTrue hEq =>
        subst hEq
        rcases hParent with hSelf | hNone
        · exact absurd hSelf.symm hNe
        · exact hNone
      case isFalse => rfl

namespace Node

/-- An indexed block that is the parent of no indexed block. -/
def Leaf (node : Node) (h : Uint256) : Prop :=
  node.entry h ≠ none ∧ ∀ k index, node.entry k = some index → index.hashPrevBlock ≠ h

/-- Both the map in memory and the stored one have the leaves as their keys. -/
def TipsAreLeaves (node : Node) : Prop :=
  ∀ h : Uint256, (node.tips.getBlockTipMap.contains h = true ↔ node.Leaf h) ∧
    ((node.tips.tipAll.getD ∅).contains h = true ↔ node.Leaf h)

/-- The map that was last written is the one in memory. -/
def TipsStored (node : Node) : Prop := node.tips.tipAll = some node.tips.getBlockTipMap

theorem tipsStored_addTip {node : Node} {manager : BlockTipManager} {index : BlockIndex}
    (hTips : node.tips = manager.addTip index) : node.TipsStored := by
  rw [TipsStored, hTips, BlockTipManager.getBlockTipMap_addTip]
  rfl

theorem AcceptCase.tipsStored {verifyScript : VerifyScript} {node : Node} {block : Block} {outcome : Outcome}
    (hCase : AcceptCase verifyScript node block outcome) (hStored : node.TipsStored) : outcome.node.TipsStored := by
  cases hCase with
  | known | notExtended | notBranched | crashed | notOvertaken | savedOnly => exact hStored
  | orphan =>
    obtain ⟨orphanBlocks, hNode⟩ := acceptOrphan_node node block
    rw [hNode]
    exact hStored
  | extended => exact tipsStored_addTip rfl
  | branched => exact tipsStored_addTip rfl
  | reorganised => exact tipsStored_addTip rfl

theorem Reachable.tipsStored {verifyScript : VerifyScript} {node : Node} (hReach : Reachable verifyScript node) :
    node.TipsStored := by
  refine (Run.invariant ?_ ?_ hReach).2
  · exact tipsStored_addTip (by rw [initial_eq])
  · intro node block node' result hTree hStored _ hAccept
    have hCase := hTree.acceptBlock_cases verifyScript block
    rw [hAccept] at hCase
    exact hCase.tipsStored hStored

namespace Tree

variable {node : Node}

theorem exists_child_of_genesis (hTree : node.Tree) {h : Uint256} {index : BlockIndex}
    (hEntry : node.entry h = some index) (hNe : h ≠ params.hashGenesisBlock) :
    ∃ k child, node.entry k = some child ∧ child.hashPrevBlock = params.hashGenesisBlock := by
  revert hNe
  refine hTree.entry_induction ?_ ?_ hEntry
  · intro hNe
    exact absurd rfl hNe
  · intro h index prev hEntry _ _ _ ih _
    rcases Decidable.em (index.hashPrevBlock = params.hashGenesisBlock) with hGenesis | hAbove
    · exact ⟨h, index, hEntry, hGenesis⟩
    · exact ih hAbove

theorem tipsAreLeaves_iff (hTree : node.Tree) (hStored : node.TipsStored) :
    node.TipsAreLeaves ↔ ∀ h, node.entry h ≠ none → h = params.hashGenesisBlock := by
  have hTipAll : node.tips.tipAll.getD ∅ = node.tips.getBlockTipMap := by rw [hStored, Option.getD_some]
  have hContains : ∀ h : Uint256, node.tips.getBlockTipMap.contains h = true ↔
      ∃ tip, node.tips.getBlockTipMap[h]? = some tip := by
    intro h
    rw [contains_eq_isSome, Option.isSome_iff_exists]
  constructor
  · intro hLeaves h hKnown
    obtain ⟨index, hEntry⟩ := Option.ne_none_iff_exists'.mp hKnown
    apply Decidable.byContradiction
    intro hNe
    -- the genesis block is a tip for ever, but it is not a leaf
    obtain ⟨k, child, hChild, hParent⟩ := hTree.exists_child_of_genesis hEntry hNe
    have hLeaf := (hLeaves params.hashGenesisBlock).1.mp ((hContains _).mpr ⟨_, hTree.genesisTip⟩)
    exact hLeaf.2 k child hChild hParent
  · intro hAlone h
    have hHere : node.tips.getBlockTipMap.contains h = true ↔ node.Leaf h := by
      rw [hContains]
      constructor
      · rintro ⟨tip, hTip⟩
        have hEntry := hTree.tipEntry h tip hTip
        have hKnown : node.entry h ≠ none := by
          rw [hEntry]
          exact Option.some_ne_none _
        refine ⟨hKnown, ?_⟩
        intro k index hIndex hParent
        have hGenesis : k = params.hashGenesisBlock := hAlone k (by rw [hIndex]; exact Option.some_ne_none _)
        subst hGenesis
        cases hIndex.symm.trans hTree.genesis
        rw [hAlone h hKnown] at hParent
        exact absurd hParent (by decide +kernel)
      · rintro ⟨hKnown, -⟩
        rw [hAlone h hKnown]
        exact ⟨_, hTree.genesisTip⟩
    rw [hTipAll]
    exact ⟨hHere, hHere⟩

end Tree

/-- In a reachable state the tips are the leaves exactly as long as only the genesis block is indexed, and
`UpdateTip` does what it is for exactly when the parent is not a tip. -/
theorem tipsAreLeaves_iff_alone {verifyScript : VerifyScript} {node : Node} (hReach : Reachable verifyScript node) :
    (node.TipsAreLeaves ↔ ∀ h, node.entry h ≠ none → h = params.hashGenesisBlock) ∧
      ∀ tip, node.tips.Replaces tip ↔
        tip.hashPrevBlock = tip.hash ∨ node.tips.getBlockTipMap[tip.hashPrevBlock]? = none :=
  ⟨hReach.tree.tipsAreLeaves_iff hReach.tipsStored, node.tips.replaces_iff⟩

theorem tipsAreLeaves_iff_alone_initial :
    (initial.TipsAreLeaves ↔ ∀ h, initial.entry h ≠ none → h = params.hashGenesisBlock) ∧
      ∀ tip, initial.tips.Replaces tip ↔
        tip.hashPrevBlock = tip.hash ∨ initial.tips.getBlockTipMap[tip.hashPrevBlock]? = none :=
  tipsAreLeaves_iff_alone (Relation.ReflTransGen.refl : Reachable anyScript initial)

/-- After the first block the genesis block is still a tip. -/
theorem exists_tip_not_leaf : ∃ (verifyScript : VerifyScript) (node : Node) (h : Uint256),
    Reachable verifyScript node ∧ node.tips.getBlockTipMap.contains h = true ∧ ¬ node.Leaf h := by
  have hEvaluated : returnsAll anyScript initial [rivalBlock 1] = true ∧
      (acceptAll anyScript initial [rivalBlock 1]).tips.getBlockTipMap.contains params.hashGenesisBlock = true ∧
      (acceptAll anyScript initial [rivalBlock 1]).entry (rivalBlock 1).getHash =
        some (BlockIndex.make 1 (rivalBlock 1).getHash params.hashGenesisBlock) := by
    decide +kernel
  obtain ⟨hReturns, hTip, hChild⟩ := hEvaluated
  refine ⟨anyScript, acceptAll anyScript initial [rivalBlock 1], params.hashGenesisBlock,
    Reachable.acceptAll _ .refl hReturns, hTip, ?_⟩
  intro hLeaf
  exact hLeaf.2 _ _ hChild rfl

end Node

end BitcoinGpuMiner
