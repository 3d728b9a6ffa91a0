import BitcoinGpuMiner.Chain.Work

/-! # The walks of `GetNextWorkRequired`

`GetBlock` leaves its result as it was when the database has no block under the hash, and the first walk
would then never end. In a block tree every hash the two walks ask for has its block.
-/

namespace BitcoinGpuMiner

open Foundation

set_option autoImplicit false

section Lookups

variable (read : Uint256 → Block → Block)

/-- The hashes the first `fuel` rounds of `skipLimitBlocks` pass to `GetBlock`, which makes `read` of them. -/
def skipLookups (limit : UInt32) : Nat → Block → List Uint256
  | 0, _ => []
  | fuel + 1, tmpBlock =>
    if !tmpBlock.hashPrevBlock.isNull && tmpBlock.nBits == limit then
      tmpBlock.hashPrevBlock :: skipLookups limit fuel (read tmpBlock.hashPrevBlock tmpBlock)
    else []

/-- The hashes `goBack` passes to `GetBlock`. -/
def goBackLookups : Nat → Block → List Uint256
  | 0, _ => []
  | count + 1, block => block.hashPrevBlock :: goBackLookups count (read block.hashPrevBlock block)

/-- The hashes a call of `GetNextWorkRequired` passes to `GetBlock`. -/
def workLookups (fuel : Nat) (activeTip : BlockIndex) (lastBlock block : Block) : List Uint256 :=
  if (activeTip.height + 1) % difficultyAdjustmentInterval ≠ 0 then
    if block.nTime.toNat > lastBlock.nTime.toNat + powTargetSpacing * 2 then []
    else skipLookups read proofOfWorkLimit fuel lastBlock
  else goBackLookups read (2016 - 1) lastBlock

end Lookups

namespace Node

/-- `GetBlock` into an object that holds a block. -/
def readOver (node : Node) (hash : Uint256) (block : Block) : Block := node.blocks[hash]?.getD block

def Found (node : Node) (hash : Uint256) : Prop := ∃ block, node.blocks[hash]? = some block

namespace Tree

variable {node : Node} {h : Uint256} {index : BlockIndex} {block : Block}

/-- The step both walks take: from a block with a parent to the stored block of the parent. -/
theorem exists_parent_block (hTree : node.Tree) (hEntry : node.entry h = some index)
    (hBlock : node.blocks[h]? = some block) (hNe : h ≠ params.hashGenesisBlock) :
    ∃ prev prevBlock, node.entry block.hashPrevBlock = some prev ∧ node.blocks[block.hashPrevBlock]? = some prevBlock ∧
      index.height = prev.height + 1 := by
  obtain ⟨stored, hStored, -, hPrevBlock, -⟩ := hTree.stored h index hEntry
  cases hStored.symm.trans hBlock
  obtain ⟨-, prev, hPrev, hHeight⟩ := hTree.parent h index hEntry hNe
  obtain ⟨prevBlock, hPrevStored, -⟩ := hTree.stored _ prev hPrev
  rw [← hPrevBlock] at hPrev hPrevStored
  exact ⟨prev, prevBlock, hPrev, hPrevStored, hHeight⟩

theorem skipLookups_found (hTree : node.Tree) (fuel : Nat) (hEntry : node.entry h = some index)
    (hBlock : node.blocks[h]? = some block) :
    ∀ hash ∈ skipLookups node.readOver proofOfWorkLimit fuel block, node.Found hash := by
  induction fuel generalizing h index block with
  | zero =>
    intro hash hMem
    cases hMem
  | succ fuel ih =>
    intro hash hMem
    rw [skipLookups] at hMem
    split at hMem
    case isFalse => cases hMem
    case isTrue hGoesOn =>
      have hNe : h ≠ params.hashGenesisBlock := by
        rintro rfl
        cases hBlock.symm.trans hTree.genesisStored
        cases hGoesOn
      obtain ⟨prev, prevBlock, hPrev, hPrevStored, -⟩ := hTree.exists_parent_block hEntry hBlock hNe
      rw [readOver, hPrevStored, Option.getD_some] at hMem
      rcases List.mem_cons.mp hMem with rfl | hLater
      · exact ⟨prevBlock, hPrevStored⟩
      · exact ih hPrev hPrevStored hash hLater

theorem goBackLookups_found (hTree : node.Tree) (count : Nat) (hEntry : node.entry h = some index)
    (hBlock : node.blocks[h]? = some block) (hHigh : (count : Int) ≤ index.height) :
    ∀ hash ∈ goBackLookups node.readOver count block, node.Found hash := by
  induction count generalizing h index block with
  | zero =>
    intro hash hMem
    cases hMem
  | succ count ih =>
    intro hash hMem
    have hNe : h ≠ params.hashGenesisBlock := by
      intro hEq
      have := (hTree.height_eq_zero_iff hEntry).mpr hEq
      omega
    obtain ⟨prev, prevBlock, hPrev, hPrevStored, hHeight⟩ := hTree.exists_parent_block hEntry hBlock hNe
    rw [goBackLookups, readOver, hPrevStored, Option.getD_some] at hMem
    rcases List.mem_cons.mp hMem with rfl | hLater
    · exact ⟨prevBlock, hPrevStored⟩
    · exact ih hPrev hPrevStored (by omega) hash hLater

theorem workLookups_found (hTree : node.Tree) {active : BlockIndex} {lastBlock : Block}
    (hActive : node.tips.getActiveTip = some active) (hLast : node.blocks[active.hash]? = some lastBlock)
    (fuel : Nat) (block : Block) : ∀ hash ∈ workLookups node.readOver fuel active lastBlock block, node.Found hash := by
  have hEntry := hTree.active_entry hActive
  unfold workLookups
  split
  case isTrue =>
    split
    case isTrue =>
      intro hash hMem
      cases hMem
    case isFalse => exact hTree.skipLookups_found _ hEntry hLast
  case isFalse hBoundary =>
    -- a retarget boundary is at least one interval above the genesis block
    have hInterval : (difficultyAdjustmentInterval : Int) = 2016 := by decide
    have hNonneg := hTree.nonneg _ active hEntry
    refine hTree.goBackLookups_found _ hEntry hLast ?_
    rw [hInterval] at hBoundary
    omega

end Tree

end Node

end BitcoinGpuMiner
