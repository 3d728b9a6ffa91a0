import BitcoinGpuMiner.Chain.ActiveChain
import BitcoinGpuMiner.Chain.PlainBlock

/-! # Where the walk to the fork point ends

The two branches should be left at their last common ancestor. The walk goes on to height one, and for every
block of the active branch it records the active tip.
-/

namespace BitcoinGpuMiner

open Foundation

set_option autoImplicit false

namespace Node

/-- The two loops of the overtaking branch. -/
def forkWalk (node : Node) (block : Block) (tip activeTip : BlockIndex) : Except Fault ForkWalk :=
  let (it, forkChain) := levelFork node.blockIndex (tip.height + 1 - activeTip.height - 1).toNat
    (some (BlockIndex.make (tip.height + 1) block.getHash block.hashPrevBlock)) []
  walkToFork node.blockIndex activeTip (node.blockIndex.size + activeTip.height.toNat + 2) it (some activeTip)
    ⟨forkChain, [], -1⟩

/-- What the branch does with the walk. -/
theorem acceptOvertaking_eq (verifyScript : VerifyScript) (node : Node) (block : Block) (tip activeTip : BlockIndex)
    (prevBlockIndex : Option BlockIndex) :
    acceptOvertaking verifyScript node block tip activeTip prevBlockIndex =
      match node.forkWalk block tip activeTip with
      | .error fault => ⟨node, .error fault⟩
      | .ok walk =>
        match checkFork verifyScript block (prevBlockIndex.getD BlockIndex.empty)
          (ScriptValidation.getBlockScriptFlags
            (BlockIndex.make (currentHeight block.getHash prevBlockIndex) block.getHash block.hashPrevBlock))
          walk.forkBlockHeight node walk.forkChain with
        | .error outcome => outcome
        | .ok check =>
          let node := walk.inValidChain.reverse.foldl clearInvalid check.node
          let node := walk.forkChain.reverse.foldl processFork node
          match check.newBlockIndex with
          | none => ⟨node, .error .nullDereference⟩
          | some newBlockIndex =>
            acceptBlockOK verifyScript { node with tips := node.tips.updateTip newBlockIndex } block.getHash := rfl

/-- The chain of an entry, newest first. -/
def backFrom (node : Node) (index : BlockIndex) : List BlockIndex :=
  (node.chainTo (index.height.toNat + 1) index.hash).reverse

/-- The blocks from `top` back to the child of `ancestor`. -/
def above (node : Node) (ancestor top : BlockIndex) : List BlockIndex :=
  (node.backFrom top).takeWhile fun index => index ≠ ancestor

/-- The highest block on the chains of both tips. -/
structure LastCommon (node : Node) (active tip ancestor : BlockIndex) : Prop where
  onActive : ancestor ∈ node.backFrom active
  onTip : ancestor ∈ node.backFrom tip
  last : ∀ other ∈ node.backFrom active, other ∈ node.backFrom tip → other.height ≤ ancestor.height

/-- What the walk is for. -/
structure WalkRight (node : Node) (block : Block) (tip active ancestor : BlockIndex) (walk : ForkWalk) : Prop where
  forkChain : walk.forkChain.map BlockIndex.hash = block.getHash :: (node.above ancestor tip).map BlockIndex.hash
  inValidChain : walk.inValidChain.map BlockIndex.hash = (node.above ancestor active).map BlockIndex.hash
  forkBlockHeight : walk.forkBlockHeight = ancestor.height

namespace Tree

variable {node : Node}

section Back

variable {index prev : BlockIndex}

theorem backFrom_genesis (hTree : node.Tree) : node.backFrom genesisIndex = [genesisIndex] :=
  congrArg List.reverse (hTree.chainTo_genesis _)

theorem backFrom_parent (hTree : node.Tree) (hEntry : node.entry index.hash = some index)
    (hNe : index.hash ≠ params.hashGenesisBlock) (hPrev : node.entry index.hashPrevBlock = some prev) :
    node.backFrom index = index :: node.backFrom prev := by
  rw [backFrom, hTree.chainTo_parent hEntry hNe hPrev, List.reverse_append, List.reverse_singleton,
    List.singleton_append, backFrom, hTree.keyed _ prev hPrev]

theorem length_backFrom (hTree : node.Tree) (hEntry : node.entry index.hash = some index) :
    ((node.backFrom index).length : Int) = index.height + 1 := by
  rw [backFrom, List.length_reverse]
  exact (hTree.txsOf_chainTo hEntry).1

theorem of_mem_backFrom (hTree : node.Tree) (hEntry : node.entry index.hash = some index) {other : BlockIndex}
    (hMem : other ∈ node.backFrom index) :
    node.entry other.hash = some other ∧ 0 ≤ other.height ∧ (other = index ∨ other.height < index.height) := by
  rw [backFrom, List.mem_reverse] at hMem
  have hOther := hTree.entry_of_mem_chainTo _ _ other hMem
  exact ⟨hOther, hTree.nonneg _ other hOther, hTree.eq_or_height_lt_of_mem_chainTo hEntry other hMem⟩

theorem head?_backFrom (hEntry : node.entry index.hash = some index) : (node.backFrom index).head? = some index := by
  rw [backFrom, List.head?_reverse]
  exact getLast?_chainTo hEntry _

theorem above_eq_take (hTree : node.Tree) {ancestor : BlockIndex} (hEntry : node.entry index.hash = some index)
    (hMem : ancestor ∈ node.backFrom index) :
    node.above ancestor index = (node.backFrom index).take (index.height - ancestor.height).toNat := by
  generalize hHash : index.hash = h at hEntry
  revert hMem hHash
  refine hTree.entry_induction ?_ ?_ hEntry
  · intro hMem _
    rw [hTree.backFrom_genesis, List.mem_singleton] at hMem
    subst hMem
    simp [above, hTree.backFrom_genesis]
  · intro h index prev hEntry hNe hPrev hSucc ih hMem hHash
    subst hHash
    have hPrevHash := hTree.keyed _ prev hPrev
    rw [above, hTree.backFrom_parent hEntry hNe hPrev]
    by_cases hEq : index = ancestor
    · subst hEq
      simp
    · have hBelow : ancestor ∈ node.backFrom prev := by
        rw [hTree.backFrom_parent hEntry hNe hPrev, List.mem_cons] at hMem
        exact hMem.resolve_left fun h => hEq h.symm
      obtain ⟨-, -, hPlace⟩ := hTree.of_mem_backFrom (hPrevHash ▸ hPrev) hBelow
      have hCount : (index.height - ancestor.height).toNat = (prev.height - ancestor.height).toNat + 1 := by
        rcases hPlace with rfl | hLt <;> omega
      rw [hCount, List.take_succ_cons, ← ih hBelow hPrevHash, List.takeWhile_cons_of_pos (by simpa using hEq), above]

theorem length_above (hTree : node.Tree) {ancestor : BlockIndex} (hEntry : node.entry index.hash = some index)
    (hMem : ancestor ∈ node.backFrom index) :
    ((node.above ancestor index).length : Int) = index.height - ancestor.height := by
  have hLength := hTree.length_backFrom hEntry
  obtain ⟨-, hNonneg, hPlace⟩ := hTree.of_mem_backFrom hEntry hMem
  have hLe : ancestor.height ≤ index.height := by rcases hPlace with rfl | hLt <;> omega
  rw [hTree.above_eq_take hEntry hMem, List.length_take]
  omega

theorem replicate_eq_above_iff (hTree : node.Tree) {ancestor : BlockIndex} (hEntry : node.entry index.hash = some index)
    (hMem : ancestor ∈ node.backFrom index) :
    List.replicate index.height.toNat index.hash = (node.above ancestor index).map BlockIndex.hash ↔
      ancestor.height = 0 ∧ index.height ≤ 1 := by
  have hNonneg := hTree.nonneg _ index hEntry
  have hLength := hTree.length_above hEntry hMem
  have hTake := hTree.above_eq_take hEntry hMem
  constructor
  · intro hEq
    have hSame := congrArg List.length hEq
    rw [List.length_replicate, List.length_map] at hSame
    have hZero : ancestor.height = 0 := by omega
    refine ⟨hZero, Int.not_lt.mp fun hHigh => ?_⟩
    -- from height two on, the parent is on the branch too
    have hNe : index.hash ≠ params.hashGenesisBlock := by
      intro hGenesis
      have := (hTree.height_eq_zero_iff hEntry).mpr hGenesis
      omega
    obtain ⟨-, prev, hPrev, hSucc⟩ := hTree.parent _ index hEntry hNe
    have hPrevEntry : node.entry prev.hash = some prev := by rw [hTree.keyed _ prev hPrev, hPrev]
    obtain ⟨tail, hTail⟩ := List.head?_eq_some_iff.mp (head?_backFrom hPrevEntry)
    have hCount : (index.height - ancestor.height).toNat = (prev.height - 1).toNat + 2 := by omega
    have hOnBranch : prev ∈ node.above ancestor index := by
      rw [hTake, hTree.backFrom_parent hEntry hNe hPrev, hTail, hCount]
      simp
    have hHash : prev.hash = index.hash := by
      have hMapped := List.mem_map_of_mem (f := BlockIndex.hash) hOnBranch
      rw [← hEq] at hMapped
      exact (List.mem_replicate.mp hMapped).2
    rw [hHash, hEntry] at hPrevEntry
    cases hPrevEntry
    omega
  · rintro ⟨hZero, hLow⟩
    obtain ⟨tail, hTail⟩ := List.head?_eq_some_iff.mp (head?_backFrom hEntry)
    rw [hTake, hTail, hZero]
    obtain hHeight | hHeight : index.height = 0 ∨ index.height = 1 := by omega
    · simp [hHeight]
    · simp [hHeight]

end Back

section Loops

variable {index prev : BlockIndex}

theorem backFrom_walksTo (hTree : node.Tree) (hEntry : node.entry index.hash = some index.core)
    (hStep : node.WalksTo index prev) :
    node.entry prev.hash = some prev.core ∧ node.backFrom index.core = index.core :: node.backFrom prev.core := by
  have hNe : index.hash ≠ params.hashGenesisBlock := by
    intro hGenesis
    rw [hGenesis, hTree.genesis] at hEntry
    exact hStep.1 (congrArg BlockIndex.hashPrevBlock (Option.some.inj hEntry)).symm
  have hPrev := entry_of_lookup hStep.2
  refine ⟨?_, hTree.backFrom_parent hEntry hNe hPrev⟩
  rw [show prev.hash = index.hashPrevBlock from hTree.keyed _ prev.core hPrev, hPrev]

theorem map_hash_walk (hTree : node.Tree) {rest : List BlockIndex} (hEntry : node.entry index.hash = some index.core)
    (hWalk : (index :: rest).IsChain node.WalksTo) :
    (index :: rest).map BlockIndex.hash = ((node.backFrom index.core).take (rest.length + 1)).map BlockIndex.hash := by
  induction rest generalizing index with
  | nil =>
    have hHead : (node.backFrom index.core).head? = some index.core := head?_backFrom hEntry
    obtain ⟨tail, hTail⟩ := List.head?_eq_some_iff.mp hHead
    rw [hTail]
    rfl
  | cons prev rest ih =>
    obtain ⟨hStep, hRest⟩ := List.isChain_cons_cons.mp hWalk
    obtain ⟨hPrev, hBack⟩ := hTree.backFrom_walksTo hEntry hStep
    rw [hBack, List.length_cons, List.take_succ_cons]
    exact congrArg (index.hash :: ·) (ih hPrev hRest)

/-- The first loop goes down as far as it is told to. -/
theorem levelFork_eq (hTree : node.Tree) (count : Nat) (forkChain : List BlockIndex) (hIt : node.WalksTo index prev)
    (hCount : (count : Int) ≤ prev.height) :
    ∃ chain last lastPrev, levelFork node.blockIndex count (some index) forkChain = (some last, forkChain ++ chain) ∧
      chain.length = count ∧ (chain ++ [last]).IsChain node.WalksTo ∧ (chain ++ [last]).head? = some index ∧
      node.WalksTo last lastPrev ∧ lastPrev.height = prev.height - count := by
  induction count generalizing index prev forkChain with
  | zero => exact ⟨[], index, prev, by simp [levelFork], rfl, List.IsChain.singleton _, rfl, hIt, by simp⟩
  | succ count ih =>
    have hNotNull : index.hashPrevBlock.isNull = false := by
      rw [Bool.eq_false_iff, Ne, Uint256.isNull_iff]
      exact hIt.1
    obtain ⟨hNull, grand, hGrand, hSucc⟩ := hTree.exists_parent (entry_of_lookup hIt.2) (by omega)
    obtain ⟨chain, last, lastPrev, hLevel, hLength, hChain, hHead, hLast, hHeight⟩ :=
      ih (forkChain ++ [index]) ⟨hNull, hGrand⟩ (by omega)
    refine ⟨index :: chain, last, lastPrev, ?_, by rw [List.length_cons, hLength], ?_, rfl, hLast, by omega⟩
    · rw [levelFork, hNotNull, if_neg Bool.false_ne_true, hIt.2, hLevel, List.append_assoc, List.singleton_append]
    · rw [List.cons_append, List.isChain_cons]
      refine ⟨?_, hChain⟩
      intro next hNext
      rw [hHead] at hNext
      cases hNext
      exact hIt

end Loops

section Walk

variable {block : Block} {tip active ancestor : BlockIndex}

theorem forkWalk_of_null (hNull : block.hashPrevBlock = Uint256.null) :
    node.forkWalk block tip active = .ok ⟨[], [], -1⟩ := by
  have hIsNull : block.hashPrevBlock.isNull = true := (Uint256.isNull_iff _).mpr hNull
  rw [forkWalk]
  cases (tip.height + 1 - active.height - 1).toNat with
  | zero => simp [levelFork, walkToFork, BlockIndex.make, hIsNull]
  | succ count => simp [levelFork, walkToFork, BlockIndex.make, hIsNull]

theorem map_hash_forkChain (hTree : node.Tree) {prev : BlockIndex} {forkChain : List BlockIndex}
    (hParent : node.blockIndex[block.hashPrevBlock]? = some prev) (hLength : 1 ≤ forkChain.length)
    (hHead : forkChain.head? = some (newIndex block prev)) (hWalk : forkChain.IsChain node.WalksTo) :
    forkChain.map BlockIndex.hash =
      block.getHash :: ((node.backFrom prev.core).take (forkChain.length - 1)).map BlockIndex.hash := by
  obtain ⟨rest, rfl⟩ := List.head?_eq_some_iff.mp hHead
  cases rest with
  | nil => simp
  | cons next rest =>
    obtain ⟨hStep, hRest⟩ := List.isChain_cons_cons.mp hWalk
    cases hParent.symm.trans hStep.2
    have hEntry := entry_of_lookup hParent
    rw [← hTree.hash_of_parent hParent] at hEntry
    exact congrArg (block.getHash :: ·) (hTree.map_hash_walk hEntry hRest)

/-- The walk goes down to height one whatever the branches look like. -/
theorem forkWalk_of_parent (hTree : node.Tree) (hTip : node.entry block.hashPrevBlock = some tip)
    (hNull : block.hashPrevBlock ≠ Uint256.null) (hActive : node.entry active.hash = some active)
    (hHigh : active.height ≤ tip.height) (hAbove : 1 ≤ tip.height) :
    ∃ walk, node.forkWalk block tip active = .ok walk ∧
      walk.forkChain.map BlockIndex.hash =
        block.getHash :: ((node.backFrom tip).take (tip.height - 1).toNat).map BlockIndex.hash ∧
      walk.inValidChain = List.replicate active.height.toNat active ∧
      walk.forkBlockHeight = if 1 ≤ active.height then 1 else -1 := by
  obtain ⟨prev, hPrev, rfl⟩ := (entry_eq_some_iff ..).mp hTip
  have hNonneg := hTree.nonneg _ active hActive
  have hActiveCore : node.entry active.hash = some active.core := by
    obtain ⟨full, hFull, rfl⟩ := (entry_eq_some_iff ..).mp hActive
    exact hActive
  simp only [BlockIndex.core_height] at hHigh hAbove ⊢
  have hIt : node.WalksTo (newIndex block prev) prev := ⟨hNull, hPrev⟩
  obtain ⟨upper, last, lastPrev, hLevel, hUpper, hUpperChain, hHead, hLast, hHeight⟩ :=
    hTree.levelFork_eq (prev.height + 1 - active.height - 1).toNat [] hIt (by omega)
  obtain ⟨lower, hLower, hLowerChain, hLowerHead, hWalk⟩ :=
    hTree.walkToFork_eq active (node.blockIndex.size + active.height.toNat + 2) ⟨[] ++ upper, [], -1⟩ hLast
      hActiveCore (by omega) (by omega)
  -- the second loop goes on from the block where the first one stopped, unless it does nothing
  have hWhole : (upper ++ lower).IsChain node.WalksTo ∧ (upper ++ lower).head? = some (newIndex block prev) := by
    by_cases hOne : 1 ≤ active.height
    · obtain ⟨rest, rfl⟩ := List.head?_eq_some_iff.mp (hLowerHead hOne)
      refine ⟨List.isChain_split.mpr ⟨hUpperChain, hLowerChain⟩, ?_⟩
      rw [List.head?_append] at hHead ⊢
      exact hHead
    · obtain rfl : lower = [] := List.eq_nil_of_length_eq_zero (by omega)
      rw [List.append_nil]
      refine ⟨hUpperChain.left_of_append, ?_⟩
      cases upper with
      | nil =>
        rw [List.length_nil] at hUpper
        omega
      | cons first rest => exact hHead
  have hCount : (upper ++ lower).length = prev.height.toNat := by
    rw [List.length_append]
    omega
  refine ⟨⟨upper ++ lower, List.replicate active.height.toNat active, if 1 ≤ active.height then 1 else -1⟩,
    ?_, ?_, rfl, rfl⟩
  · rw [hLower] at hWalk
    rw [forkWalk]
    dsimp only [BlockIndex.core_height]
    rw [← newIndex, hLevel]
    exact hWalk
  · have hHashes := hTree.map_hash_forkChain hPrev (by omega) hWhole.2 hWhole.1
    rw [hCount] at hHashes
    rw [hHashes]
    congr 3
    omega

theorem exists_lastCommon (hTree : node.Tree) (hActive : node.entry active.hash = some active)
    (hTip : node.entry tip.hash = some tip) : ∃ ancestor, node.LastCommon active tip ancestor := by
  generalize hHash : active.hash = h at hActive
  revert hHash
  -- the first block, on the way down from the active tip, that is on the chain of the other tip
  refine hTree.entry_induction ?_ ?_ hActive
  · intro _
    refine ⟨genesisIndex, by simp [hTree.backFrom_genesis], ?_, ?_⟩
    · rw [backFrom, List.mem_reverse]
      exact hTree.genesis_mem_chainTo hTip
    · intro other hOther _
      rw [hTree.backFrom_genesis, List.mem_singleton] at hOther
      rw [hOther]
  · intro h index prev hEntry hNe hPrev hSucc ih hHash
    subst hHash
    have hBack := hTree.backFrom_parent hEntry hNe hPrev
    by_cases hOn : index ∈ node.backFrom tip
    · refine ⟨index, by simp [hBack], hOn, ?_⟩
      intro other hOther _
      obtain ⟨-, -, rfl | hLt⟩ := hTree.of_mem_backFrom hEntry hOther
      · exact Int.le_refl _
      · exact Int.le_of_lt hLt
    · obtain ⟨ancestor, hCommon⟩ := ih (hTree.keyed _ prev hPrev)
      refine ⟨ancestor, by simp [hBack, hCommon.onActive], hCommon.onTip, ?_⟩
      intro other hOther hOnTip
      rw [hBack, List.mem_cons] at hOther
      rcases hOther with rfl | hOther
      · exact absurd hOnTip hOn
      · exact hCommon.last other hOther hOnTip

theorem heights_of_lastCommon (hTree : node.Tree) (hActive : node.entry active.hash = some active)
    (hTip : node.entry tip.hash = some tip) (hCommon : node.LastCommon active tip ancestor) :
    0 ≤ ancestor.height ∧ ancestor.height ≤ active.height ∧ ancestor.height ≤ tip.height := by
  obtain ⟨-, hNonneg, hOnActive⟩ := hTree.of_mem_backFrom hActive hCommon.onActive
  obtain ⟨-, -, hOnTip⟩ := hTree.of_mem_backFrom hTip hCommon.onTip
  refine ⟨hNonneg, ?_, ?_⟩
  · rcases hOnActive with rfl | hLt <;> omega
  · rcases hOnTip with rfl | hLt <;> omega

theorem one_le_height (hTree : node.Tree) (hActive : node.entry active.hash = some active)
    (hTip : node.entry tip.hash = some tip) (hOther : tip ≠ active) (hHigh : active.height < tip.height + 1) :
    1 ≤ tip.height := by
  have hTipNonneg := hTree.nonneg _ tip hTip
  have hActiveNonneg := hTree.nonneg _ active hActive
  refine Int.not_lt.mp fun hLow => hOther ?_
  have hTipGenesis := (hTree.height_eq_zero_iff hTip).mp (by omega)
  have hActiveGenesis := (hTree.height_eq_zero_iff hActive).mp (by omega)
  rw [hTipGenesis, ← hActiveGenesis, hActive] at hTip
  exact (Option.some.inj hTip).symm

theorem forkWalk_right_iff (hTree : node.Tree) (hTip : node.entry block.hashPrevBlock = some tip)
    (hActive : node.entry active.hash = some active) (hOther : tip ≠ active) (hHigh : active.height < tip.height + 1)
    (hCommon : node.LastCommon active tip ancestor) :
    ∃ walk, node.forkWalk block tip active = .ok walk ∧ ¬ node.WalkRight block tip active ancestor walk ∧
      (walk.forkChain.map BlockIndex.hash = block.getHash :: (node.above ancestor tip).map BlockIndex.hash ↔
        block.hashPrevBlock ≠ Uint256.null ∧ ancestor.height = 1) ∧
      (walk.inValidChain.map BlockIndex.hash = (node.above ancestor active).map BlockIndex.hash ↔
        if block.hashPrevBlock = Uint256.null then ancestor.height = active.height
        else ancestor.height = 0 ∧ active.height ≤ 1) ∧
      (walk.forkBlockHeight = ancestor.height ↔ block.hashPrevBlock ≠ Uint256.null ∧ ancestor.height = 1) := by
  have hTipHash : tip.hash = block.hashPrevBlock := hTree.keyed _ tip hTip
  have hTipEntry : node.entry tip.hash = some tip := by rw [hTipHash, hTip]
  obtain ⟨hNonneg, hLeActive, hLeTip⟩ := hTree.heights_of_lastCommon hActive hTipEntry hCommon
  have hActiveLength := hTree.length_above hActive hCommon.onActive
  have hTipLength := hTree.length_above hTipEntry hCommon.onTip
  by_cases hNull : block.hashPrevBlock = Uint256.null
  · refine ⟨_, forkWalk_of_null hNull, ?_, ?_, ?_, ?_⟩
    · intro hRight
      cases hRight.forkChain
    · simp [hNull]
    · rw [if_pos hNull]
      constructor
      · intro hEq
        have hEmpty := congrArg List.length hEq
        rw [List.map_nil, List.length_nil, List.length_map] at hEmpty
        omega
      · intro hEq
        rw [List.eq_nil_of_length_eq_zero (by omega : (node.above ancestor active).length = 0)]
    · simp only [hNull, ne_eq, not_true_eq_false, false_and, iff_false]
      omega
  · have hAbove := hTree.one_le_height hActive hTipEntry hOther hHigh
    obtain ⟨walk, hWalk, hForkChain, hInValidChain, hHeight⟩ :=
      hTree.forkWalk_of_parent hTip hNull hActive (by omega) hAbove
    have hFork : walk.forkChain.map BlockIndex.hash = block.getHash :: (node.above ancestor tip).map BlockIndex.hash ↔
        ancestor.height = 1 := by
      rw [hForkChain]
      constructor
      · intro hEq
        have hSame := congrArg List.length hEq
        have hLength := hTree.length_backFrom hTipEntry
        rw [List.length_cons, List.length_cons, List.length_map, List.length_map, List.length_take] at hSame
        omega
      · intro hOne
        rw [hTree.above_eq_take hTipEntry hCommon.onTip, hOne]
    have hInValid : walk.inValidChain.map BlockIndex.hash = (node.above ancestor active).map BlockIndex.hash ↔
        ancestor.height = 0 ∧ active.height ≤ 1 := by
      rw [hInValidChain, List.map_replicate, hTree.replicate_eq_above_iff hActive hCommon.onActive]
    refine ⟨walk, hWalk, ?_, ?_, ?_, ?_⟩
    · intro hRight
      have := hFork.mp hRight.forkChain
      have := hInValid.mp hRight.inValidChain
      omega
    · simpa [hNull] using hFork
    · rw [if_neg hNull, hInValid]
    · rw [hHeight]
      simp only [hNull, ne_eq, not_false_eq_true, true_and]
      split <;> omega

/-- The walk is never right: it takes the fork to be at height one, and it takes every block of the abandoned
branch to be the active tip. -/
theorem forkWalk_not_right (hTree : node.Tree) (hTip : node.entry block.hashPrevBlock = some tip)
    (hActive : node.entry active.hash = some active) (hOther : tip ≠ active)
    (hHigh : active.height < tip.height + 1) :
    (∃ ancestor, node.LastCommon active tip ancestor) ∧
      ∃ walk, node.forkWalk block tip active = .ok walk ∧ ∀ ancestor, node.LastCommon active tip ancestor →
        ¬ node.WalkRight block tip active ancestor walk ∧
        (walk.forkChain.map BlockIndex.hash = block.getHash :: (node.above ancestor tip).map BlockIndex.hash ↔
          block.hashPrevBlock ≠ Uint256.null ∧ ancestor.height = 1) ∧
        (walk.inValidChain.map BlockIndex.hash = (node.above ancestor active).map BlockIndex.hash ↔
          if block.hashPrevBlock = Uint256.null then ancestor.height = active.height
          else ancestor.height = 0 ∧ active.height ≤ 1) ∧
        (walk.forkBlockHeight = ancestor.height ↔ block.hashPrevBlock ≠ Uint256.null ∧ ancestor.height = 1) := by
  have hTipEntry : node.entry tip.hash = some tip := by rw [hTree.keyed _ tip hTip, hTip]
  obtain ⟨first, hFirst⟩ := hTree.exists_lastCommon hActive hTipEntry
  obtain ⟨walk, hWalk, -⟩ := hTree.forkWalk_right_iff hTip hActive hOther hHigh hFirst
  refine ⟨⟨first, hFirst⟩, walk, hWalk, ?_⟩
  intro ancestor hCommon
  obtain ⟨same, hSame, hParts⟩ := hTree.forkWalk_right_iff hTip hActive hOther hHigh hCommon
  cases hWalk.symm.trans hSame
  exact hParts

end Walk

end Tree

section Tied

def tiedActive : BlockIndex := BlockIndex.make 1 (rivalBlock 1).getHash params.hashGenesisBlock

def tiedTip : BlockIndex := BlockIndex.make 1 (rivalBlock 2).getHash params.hashGenesisBlock

theorem tied_hashes : (rivalBlock 2).getHash ≠ (rivalBlock 1).getHash ∧ (rivalBlock 2).getHash ≠ Uint256.null ∧
    tied.tips.getTip (rivalBlock 2).getHash = some tiedTip := by
  decide +kernel

theorem tied_entries :
    tied.entry tiedActive.hash = some tiedActive ∧ tied.entry secondRival.hashPrevBlock = some tiedTip :=
  ⟨tied_reachable.tree.active_entry tied_activeTip, Tree.entry_of_lookup tied_rival⟩

theorem tied_backFrom {hash : Uint256} (hEntry : tied.entry hash = some (BlockIndex.make 1 hash params.hashGenesisBlock)) :
    tied.backFrom (BlockIndex.make 1 hash params.hashGenesisBlock) =
      [BlockIndex.make 1 hash params.hashGenesisBlock, genesisIndex] := by
  have hTree : tied.Tree := tied_reachable.tree
  have hNe : hash ≠ params.hashGenesisBlock := by
    intro hGenesis
    have hZero := (hTree.height_eq_zero_iff hEntry).mpr hGenesis
    cases hZero
  rw [hTree.backFrom_parent hEntry hNe hTree.genesis, hTree.backFrom_genesis]

theorem tied_lastCommon : tied.LastCommon tiedActive tiedTip genesisIndex := by
  have hActive : tied.backFrom tiedActive = [tiedActive, genesisIndex] := tied_backFrom tied_entries.1
  have hTip : tied.backFrom tiedTip = [tiedTip, genesisIndex] := tied_backFrom tied_entries.2
  constructor
  · simp [hActive]
  · simp [hTip]
  · intro other hOnActive hOnTip
    rw [hActive, List.mem_pair] at hOnActive
    rw [hTip, List.mem_pair] at hOnTip
    rcases hOnActive with rfl | rfl
    · rcases hOnTip with hEq | hEq
      · exact absurd (congrArg BlockIndex.hash hEq).symm tied_hashes.1
      · cases congrArg BlockIndex.height hEq
    · exact Int.le_refl _

theorem tiedTip_ne_tiedActive : tiedTip ≠ tiedActive := fun hEq => tied_hashes.1 (congrArg BlockIndex.hash hEq)

theorem forkWalk_not_right_tied : ∃ walk, tied.forkWalk secondRival tiedTip tiedActive = .ok walk ∧
    ¬ tied.WalkRight secondRival tiedTip tiedActive genesisIndex walk := by
  obtain ⟨-, walk, hWalk, hParts⟩ := tied_reachable.tree.forkWalk_not_right tied_entries.2 tied_entries.1
    tiedTip_ne_tiedActive (by decide : (1 : Int) < 1 + 1)
  exact ⟨walk, hWalk, (hParts genesisIndex tied_lastCommon).1⟩

/-- Two branches that part at the genesis block: the walk gives one for the height of the fork. -/
theorem exists_fork_misplaced : ∃ (verifyScript : VerifyScript) (node : Node) (block : Block)
    (tip active ancestor : BlockIndex) (walk : ForkWalk), Reachable verifyScript node ∧
      node.tips.getActiveTip = some active ∧ node.tips.getTip block.hashPrevBlock = some tip ∧ tip ≠ active ∧
      tip.height + 1 > active.height ∧ node.LastCommon active tip ancestor ∧
      node.forkWalk block tip active = .ok walk ∧ walk.forkBlockHeight = 1 ∧ ancestor.height = 0 := by
  obtain ⟨walk, hWalk, -, -, hHeight⟩ := tied_reachable.tree.forkWalk_of_parent tied_entries.2 tied_hashes.2.1
    tied_entries.1 (by decide : (1 : Int) ≤ 1) (by decide : (1 : Int) ≤ 1)
  exact ⟨anyScript, tied, secondRival, tiedTip, tiedActive, genesisIndex, walk, tied_reachable, tied_activeTip,
    tied_hashes.2.2, tiedTip_ne_tiedActive, by decide, tied_lastCommon, hWalk, hHeight, rfl⟩

end Tied

end Node

end BitcoinGpuMiner
