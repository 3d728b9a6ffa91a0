import Mathlib.Data.List.Chain
import BitcoinGpuMiner.Chain.Branches

/-! # The reorganisation branch in a block tree

The walk never meets the other branch, because it compares pointers, so it always goes down
to height one. Above height one the check loop then reads the height of the new block before
that block has been saved; only at height one does it get any further.
-/

namespace BitcoinGpuMiner

open Foundation

set_option autoImplicit false

/-- The walk goes from `index` to `prev`. -/
def Node.WalksTo (node : Node) (index prev : BlockIndex) : Prop :=
  index.hashPrevBlock ≠ Uint256.null ∧ node.blockIndex[index.hashPrevBlock]? = some prev

namespace Node.Tree

variable {node : Node}

theorem lookup_of_mem_walk {index : BlockIndex} {rest : List BlockIndex}
    (hWalk : (index :: rest).IsChain node.WalksTo) : ∀ x ∈ rest, ∃ k : Uint256, node.blockIndex[k]? = some x := by
  induction rest generalizing index with
  | nil => simp
  | cons next rest ih =>
    obtain ⟨hStep, hRest⟩ := List.isChain_cons_cons.mp hWalk
    intro x hMem
    rcases List.mem_cons.mp hMem with rfl | hMem
    · exact ⟨_, hStep.2⟩
    · exact ih hRest x hMem

theorem entry_of_lookup {h : Uint256} {index : BlockIndex} (hLookup : node.blockIndex[h]? = some index) :
    node.entry h = some index.core := (entry_eq_some_iff ..).mpr ⟨index, hLookup, rfl⟩

theorem exists_parent (hTree : node.Tree) {h : Uint256} {index : BlockIndex} (hEntry : node.entry h = some index.core)
    (hHeight : 1 ≤ index.height) : index.hashPrevBlock ≠ Uint256.null ∧
      ∃ prev, node.blockIndex[index.hashPrevBlock]? = some prev ∧ index.height = prev.height + 1 := by
  have hNe : h ≠ params.hashGenesisBlock := by
    intro hEq
    have hZero : index.core.height = 0 := (hTree.height_eq_zero_iff hEntry).mpr hEq
    have : index.core.height = index.height := rfl
    omega
  obtain ⟨hNull, prev, hPrev, hSucc⟩ := hTree.parent h index.core hEntry hNe
  obtain ⟨full, hFull, rfl⟩ := (entry_eq_some_iff ..).mp hPrev
  exact ⟨hNull, full, hFull, hSucc⟩

/-- The walk collects as many blocks as the active tip is high, from the one it starts at downwards. -/
theorem walkToFork_eq (hTree : node.Tree) (activeTip : BlockIndex) (fuel : Nat) {it parent activeIt : BlockIndex}
    {h : Uint256} (walk : ForkWalk) (hIt : node.WalksTo it parent) (hActiveIt : node.entry h = some activeIt.core)
    (hHeights : parent.height = activeIt.height) (hFuel : activeIt.height.toNat < fuel) :
    ∃ chain : List BlockIndex, chain.length = activeIt.height.toNat ∧ chain.IsChain node.WalksTo ∧
      (1 ≤ activeIt.height → chain.head? = some it) ∧
      walkToFork node.blockIndex activeTip fuel (some it) (some activeIt) walk =
        .ok ⟨walk.forkChain ++ chain, walk.inValidChain ++ List.replicate chain.length activeTip,
          if 1 ≤ activeIt.height then 1 else walk.forkBlockHeight⟩ := by
  -- induction on the fuel; the block walked over is always one above the active one
  induction fuel generalizing it parent activeIt h walk with
  | zero => omega
  | succ fuel ih =>
    have hNonneg : 0 ≤ activeIt.height := hTree.nonneg h activeIt.core hActiveIt
    have hItNull : it.hashPrevBlock.isNull = false := by
      rw [Bool.eq_false_iff, Ne, Uint256.isNull_iff]
      exact hIt.1
    by_cases hHeight : 1 ≤ activeIt.height
    · obtain ⟨hNull, prev, hPrev, hSucc⟩ := hTree.exists_parent hActiveIt hHeight
      obtain ⟨hParentNull, grand, hGrand, hGrandSucc⟩ :=
        hTree.exists_parent (entry_of_lookup hIt.2) (by omega : 1 ≤ parent.height)
      obtain ⟨chain, hLength, hChain, hHead, hWalk⟩ := ih
        { forkChain := walk.forkChain ++ [it]
          inValidChain := walk.inValidChain ++ [activeTip]
          forkBlockHeight := parent.height }
        ⟨hParentNull, hGrand⟩ (entry_of_lookup hPrev) (by omega) (by omega)
      have hActiveNull : activeIt.hashPrevBlock.isNull = false := by
        rw [Bool.eq_false_iff, Ne, Uint256.isNull_iff]
        exact hNull
      refine ⟨it :: chain, by rw [List.length_cons, hLength]; omega, List.isChain_cons.mpr ⟨?_, hChain⟩,
        fun _ => rfl, ?_⟩
      · intro next hNext
        by_cases hPrevHeight : 1 ≤ prev.height
        · rw [hHead hPrevHeight] at hNext
          cases hNext
          exact hIt
        · have hNil : chain = [] := List.eq_nil_of_length_eq_zero (by omega)
          rw [hNil] at hNext
          cases hNext
      · rw [walkToFork, hActiveNull, hItNull, hIt.2, hPrev]
        simp only [Bool.or_self, Bool.false_eq_true, if_false, hWalk, List.length_cons, List.replicate_succ,
          List.append_assoc, List.cons_append, List.nil_append, hHeight, if_true]
        congr 2
        split <;> omega
    · have hGenesis : activeIt.core = genesisIndex := by
        obtain rfl := (hTree.height_eq_zero_iff hActiveIt).mp (show activeIt.height = 0 by omega)
        exact Option.some.inj (hActiveIt.symm.trans hTree.genesis)
      have hNull : activeIt.hashPrevBlock.isNull = true := by
        have : activeIt.hashPrevBlock = Uint256.null := congrArg BlockIndex.hashPrevBlock hGenesis
        rw [this]
        rfl
      refine ⟨[], by rw [List.length_nil]; omega, List.IsChain.nil, fun h => absurd h hHeight, ?_⟩
      rw [walkToFork, hNull]
      simp [hHeight]

end Node.Tree

theorem ForkCheck.foldl_record (index : BlockIndex) (vtx : List NetMessageTransaction) (check : ForkCheck) :
    (vtx.foldl (ForkCheck.record index) check).node = check.node ∧
      (vtx.foldl (ForkCheck.record index) check).newBlockIndex = check.newBlockIndex := by
  induction vtx generalizing check with
  | nil => exact ⟨rfl, rfl⟩
  | cons tx rest ih => exact ih (check.record index tx)

namespace Node

/-- The node after a reorganisation from height one: the active tip's transactions are cleared,
those of the new block recorded. -/
def reorganised (node : Node) (block : Block) (prev activeTip : BlockIndex) : Node :=
  let cleared := (node.withBlock block prev false).clearInvalid activeTip
  let processed := cleared.processTransactions block.vtx block.getHash (prev.height + 1)
  { processed with tips := node.tips.updateTip (newIndex block prev) }

namespace Tree

variable {node : Node} {block : Block} {prev tip activeTip : BlockIndex} (verifyScript : VerifyScript)

/-- With the null hash as parent nothing is walked over and no block is saved. -/
theorem acceptOvertaking_of_null (hTip : tip.height = activeTip.height)
    (hNull : block.hashPrevBlock = Uint256.null) :
    acceptOvertaking verifyScript node block tip activeTip (some prev) = ⟨node, .error .nullDereference⟩ := by
  have hCount : (tip.height + 1 - activeTip.height - 1).toNat = 0 := by omega
  have hIsNull : block.hashPrevBlock.isNull = true := (Uint256.isNull_iff _).mpr hNull
  unfold acceptOvertaking
  simp only [hCount, levelFork, walkToFork, BlockIndex.make, hIsNull, Bool.or_true, if_true]
  rfl

theorem forkBlock_new (hPrev : prev.hash ≠ Uint256.null) :
    forkBlock block prev ⟨node, none, ∅, ∅⟩ (newIndex block prev) =
      some (⟨node.withBlock block prev false, some (newIndex block prev), ∅, ∅⟩, block) := by
  rw [forkBlock, if_pos (newIndex_hash block prev), saveBlock_of_ne_null node block false hPrev]

theorem checkFork_singleton (hTree : node.Tree) (hPrev : prev.hash ≠ Uint256.null) (scriptFlags : UInt32)
    (forkBlockHeight : Int) :
    checkFork verifyScript block prev scriptFlags forkBlockHeight node [newIndex block prev] =
      if blockOk block then
        match checkTransactions verifyScript node.ledger scriptFlags (prev.height + 1)
          (some ⟨∅, ∅, forkBlockHeight⟩) block.vtx with
        | .error fault => .error ⟨node.withBlock block prev false, .error fault⟩
        | .ok none => .error ⟨node.withBlock block prev false, .ok false⟩
        | .ok (some _) => .ok (block.vtx.foldl (ForkCheck.record (newIndex block prev))
            ⟨node.withBlock block prev false, some (newIndex block prev), ∅, ∅⟩)
      else .error ⟨node, .ok false⟩ := by
  rw [checkFork, List.reverse_singleton, List.foldlM_cons, checkForkBlock, hTree.checkBlock_eq]
  cases blockOk block with
  | false => rfl
  | true =>
    rw [if_pos rfl, forkBlock_new hPrev]
    dsimp only [withBlock_ledger, newIndex_height]
    cases checkTransactions verifyScript node.ledger scriptFlags (prev.height + 1)
      (some ⟨∅, ∅, forkBlockHeight⟩) block.vtx with
    | error fault => rfl
    | ok r => cases r <;> rfl

theorem processFork_clearInvalid (node : Node) (block : Block) (prev activeTip : BlockIndex) :
    ((node.withBlock block prev false).clearInvalid activeTip).processFork (newIndex block prev) =
      ((node.withBlock block prev false).clearInvalid activeTip).processTransactions block.vtx block.getHash
        (prev.height + 1) := by
  have hGet : ((node.withBlock block prev false).clearInvalid activeTip).getBlock block.getHash = block := by
    show (node.withBlock block prev false).getBlock block.getHash = block
    rw [getBlock, withBlock_blocks, if_pos rfl, Option.getD_some]
  show processTransactions _ (getBlock _ block.getHash).vtx _ _ = _
  rw [hGet]
  rfl

section Walk

variable (hTree : node.Tree) (hParent : node.blockIndex[block.hashPrevBlock]? = some prev)
variable (hActive : node.tips.getActiveTip = some activeTip) (hTip : tip.height = activeTip.height)
variable (hPrev : prev.height = activeTip.height) (hNotNull : block.hashPrevBlock ≠ Uint256.null)
include hTree hParent hActive hTip hPrev hNotNull

theorem forkWalk_eq (hHeight : 1 ≤ activeTip.height) :
    ∃ rest : List BlockIndex, rest.length + 1 = activeTip.height.toNat ∧
      (∀ x ∈ rest, ∃ k : Uint256, node.blockIndex[k]? = some x) ∧
      (levelFork node.blockIndex (tip.height + 1 - activeTip.height - 1).toNat
        (some (newIndex block prev)) []) = (some (newIndex block prev), []) ∧
      walkToFork node.blockIndex activeTip (node.blockIndex.size + activeTip.height.toNat + 2)
        (some (newIndex block prev)) (some activeTip) ⟨[], [], -1⟩ =
        .ok ⟨newIndex block prev :: rest, List.replicate activeTip.height.toNat activeTip, 1⟩ := by
  have hCount : (tip.height + 1 - activeTip.height - 1).toNat = 0 := by omega
  have hCore : activeTip.core = activeTip := by
    obtain ⟨full, -, rfl⟩ := (entry_eq_some_iff ..).mp (hTree.active_entry hActive)
    rfl
  have hIt : node.WalksTo (newIndex block prev) prev := ⟨hNotNull, hParent⟩
  have hActiveIt : node.entry activeTip.hash = some activeTip.core := by
    rw [hCore]
    exact hTree.active_entry hActive
  obtain ⟨chain, hLength, hChain, hHead, hWalk⟩ := hTree.walkToFork_eq activeTip
    (node.blockIndex.size + activeTip.height.toNat + 2) ⟨[], [], -1⟩ hIt hActiveIt hPrev (by omega)
  obtain ⟨rest, rfl⟩ := List.head?_eq_some_iff.mp (hHead hHeight)
  refine ⟨rest, hLength, lookup_of_mem_walk hChain, by rw [hCount]; rfl, ?_⟩
  rw [hWalk, hLength, if_pos hHeight]
  rfl

/-- Above height one the loop stops at its first block: the new block's index is still null. -/
theorem acceptOvertaking_of_high (hNew : node.entry block.getHash = none) (hHeight : 2 ≤ activeTip.height) :
    acceptOvertaking verifyScript node block tip activeTip (some prev) =
      if blockOk block then ⟨node, .error .nullDereference⟩ else ⟨node, .ok false⟩ := by
  obtain ⟨rest, hLength, hRest, hLevel, hWalk⟩ :=
    forkWalk_eq hTree hParent hActive hTip hPrev hNotNull (by omega : 1 ≤ activeTip.height)
  -- the oldest block of the fork is one of the index, not the new one
  obtain ⟨older, last, rfl⟩ : ∃ older last, rest = older ++ [last] := by
    rcases List.eq_nil_or_concat rest with rfl | ⟨older, last, h⟩
    · rw [List.length_nil] at hLength
      omega
    · exact ⟨older, last, by rw [h, List.concat_eq_append]⟩
  obtain ⟨k, hLast⟩ := hRest last (by simp)
  have hNe : last.hash ≠ block.getHash := by
    intro hEq
    have hKey : last.core.hash = k := hTree.keyed _ _ (entry_of_lookup hLast)
    have : k = block.getHash := hKey.symm.trans hEq
    rw [← this, entry_of_lookup hLast] at hNew
    cases hNew
  have hMake : BlockIndex.make (tip.height + 1) block.getHash block.hashPrevBlock = newIndex block prev := by
    rw [newIndex, hTip, hPrev]
  unfold acceptOvertaking
  simp only [hMake, hLevel, hWalk, checkFork, List.reverse_cons, List.reverse_append, List.reverse_nil,
    List.nil_append, List.cons_append, List.foldlM_cons, checkForkBlock, hTree.checkBlock_eq, forkBlock, hNe,
    if_false]
  cases blockOk block <;> rfl

/-- From height one the new block is saved, and checked against an overlay that is empty. -/
theorem acceptOvertaking_of_one (hNew : node.entry block.getHash = none) (hHeight : activeTip.height = 1) :
    acceptOvertaking verifyScript node block tip activeTip (some prev) =
      if blockOk block then
        match checkTransactions verifyScript node.ledger (scriptFlagsAt 2) 2 (some ⟨∅, ∅, 1⟩) block.vtx with
        | .error fault => ⟨node.withBlock block prev false, .error fault⟩
        | .ok none => ⟨node.withBlock block prev false, .ok false⟩
        | .ok (some _) => acceptBlockOK verifyScript (node.reorganised block prev activeTip) block.getHash
      else ⟨node, .ok false⟩ := by
  obtain ⟨rest, hLength, hRest, hLevel, hWalk⟩ :=
    forkWalk_eq hTree hParent hActive hTip hPrev hNotNull (by omega : 1 ≤ activeTip.height)
  obtain rfl : rest = [] := List.eq_nil_of_length_eq_zero (by omega)
  have hPrevHash : prev.hash ≠ Uint256.null := by
    rw [hTree.hash_of_parent hParent]
    exact hNotNull
  have hTwo : prev.height + 1 = 2 := by omega
  have hMake : BlockIndex.make (tip.height + 1) block.getHash block.hashPrevBlock = newIndex block prev := by
    rw [newIndex, hTip, hPrev]
  have hOne : activeTip.height.toNat = 1 := by omega
  rw [hOne] at hWalk
  unfold acceptOvertaking
  simp only [hOne, hMake, hLevel, hWalk, Option.getD_some, checkFork_singleton verifyScript hTree hPrevHash,
    currentHeight_of_parent (hTree.ne_genesis_of_new hNew), hTwo, getBlockScriptFlags_make (by decide : (0 : Int) ≤ 2)]
  cases blockOk block with
  | false => rfl
  | true =>
    cases checkTransactions verifyScript node.ledger (scriptFlagsAt 2) 2 (some ⟨∅, ∅, 1⟩) block.vtx with
    | error fault => rfl
    | ok r =>
      cases r with
      | none => rfl
      | some result =>
        obtain ⟨hNode, hIndex⟩ := ForkCheck.foldl_record (newIndex block prev) block.vtx
          ⟨node.withBlock block prev false, some (newIndex block prev), ∅, ∅⟩
        simp only [if_true, hNode, hIndex, List.replicate_one, List.reverse_singleton, List.foldl_cons, List.foldl_nil,
          processFork_clearInvalid]
        rfl

end Walk

end Tree

end Node

end BitcoinGpuMiner
