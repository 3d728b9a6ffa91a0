import BitcoinGpuMiner.Ledger.PlainChain

/-! # The check loop of a reorganisation

The loop reads the height of the new block through a pointer that is set when the loop comes to that
block, which is the last one. A candidate branch has at least one block below the new one, so the
loop never gets past its first block.
-/

namespace BitcoinGpuMiner

open Foundation

set_option autoImplicit false

/-- The blocks are valid one after another on top of the chain `base`. -/
def ReplayValid (verifyScript : VerifyScript) (base : List Block) : List Block → Prop
  | [] => True
  | block :: rest =>
    VtxValid verifyScript (ledgerOf base) base.length block.vtx ∧ ReplayValid verifyScript (base ++ [block]) rest

/-- Entries each of which names the one before as its parent. -/
def Path (start : Uint256) : List BlockIndex → Uint256 → Prop
  | [], last => start = last
  | index :: rest, last => index.hashPrevBlock = start ∧ Path index.hash rest last

theorem Path.append_singleton {start last : Uint256} {indices : List BlockIndex} (hPath : Path start indices last)
    {index : BlockIndex} (hLink : index.hashPrevBlock = last) : Path start (indices ++ [index]) index.hash := by
  induction indices generalizing start with
  | nil => exact ⟨hLink.trans hPath.symm, rfl⟩
  | cons first rest ih => exact ⟨hPath.1, ih hPath.2⟩

namespace Node

/-- The stored blocks between the active chain's block at `forkHeight` and a new block. -/
structure SideBranch (node : Node) (block : Block) (stored : List BlockIndex) (forkHeight : Nat) : Prop where
  indexed : ∀ index ∈ stored, node.entry index.hash = some index
  side : ∀ index ∈ stored, index ∉ node.activeChain
  path : ∃ fork, node.activeChain[forkHeight]? = some fork ∧ Path fork.hash stored block.hashPrevBlock

def candidateBlocks (node : Node) (block : Block) (stored : List BlockIndex) : List Block :=
  stored.map (fun index => node.getBlock index.hash) ++ [block]

def forkChainOf (block : Block) (prev : BlockIndex) (stored : List BlockIndex) : List BlockIndex :=
  newIndex block prev :: stored.reverse

def AcceptsFork (verifyScript : VerifyScript) (node : Node) (block : Block) (prev : BlockIndex)
    (stored : List BlockIndex) (forkHeight : Nat) : Prop :=
  ∃ check, checkFork verifyScript block prev (scriptFlagsAt (prev.height + 1)) forkHeight node
    (forkChainOf block prev stored) = .ok check

namespace Tree

variable {node : Node} {block : Block} {prev active : BlockIndex} {stored : List BlockIndex} {forkHeight : Nat}

/-- In the overtaking branch at least one block of the candidate chain is stored already. -/
theorem stored_ne_nil (hTree : node.Tree) (hCandidate : node.Candidate block prev active)
    (hRival : node.Rival block prev active) (hBranch : node.SideBranch block stored forkHeight) : stored ≠ [] := by
  rintro rfl
  obtain ⟨fork, hFork, hPath⟩ := hBranch.path
  have hActive := hTree.active_entry hCandidate.active
  have hMem := List.mem_of_getElem? hFork
  rw [activeChain_of_active hCandidate.active] at hMem
  have hEntry := hTree.entry_of_mem_chainTo _ _ fork hMem
  have hSame : prev.core = fork := by
    have hParent := candidate_entry hCandidate
    rw [← hPath, hEntry] at hParent
    exact (Option.some.inj hParent).symm
  have hHeight : fork.height = active.height := by
    rw [← hSame, BlockIndex.core_height]
    exact hRival.height
  rcases hTree.eq_or_height_lt_of_mem_chainTo hActive fork hMem with rfl | hLt
  · exact hRival.other hPath.symm
  · omega

theorem exists_path (hTree : node.Tree) {h : Uint256} {index : BlockIndex} (hEntry : node.entry h = some index) :
    ∃ (forkHeight : Nat) (fork : BlockIndex) (stored : List BlockIndex), node.activeChain[forkHeight]? = some fork ∧
      Path fork.hash stored h ∧ ∀ other ∈ stored, node.entry other.hash = some other ∧ other ∉ node.activeChain := by
  have hOn : ∀ h index, node.entry h = some index → index ∈ node.activeChain →
      ∃ (forkHeight : Nat) (fork : BlockIndex) (stored : List BlockIndex), node.activeChain[forkHeight]? = some fork ∧
        Path fork.hash stored h ∧ ∀ other ∈ stored, node.entry other.hash = some other ∧ other ∉ node.activeChain := by
    intro h index hEntry hMem
    obtain ⟨forkHeight, hGet⟩ := List.mem_iff_getElem?.mp hMem
    exact ⟨forkHeight, index, [], hGet, hTree.keyed h index hEntry, fun _ hOther => nomatch hOther⟩
  refine hTree.entry_induction ?_ ?_ hEntry
  · apply hOn _ _ hTree.genesis
    obtain ⟨active, hActive⟩ := hTree.exists_active
    rw [activeChain_of_active hActive]
    exact hTree.genesis_mem_chainTo (hTree.active_entry hActive)
  · intro h index prev hEntry hNe hPrev hSucc ih
    rcases Decidable.em (index ∈ node.activeChain) with hMem | hOff
    · exact hOn h index hEntry hMem
    obtain ⟨forkHeight, fork, stored, hFork, hPath, hStored⟩ := ih
    obtain rfl := hTree.keyed h index hEntry
    refine ⟨forkHeight, fork, stored ++ [index], hFork, hPath.append_singleton rfl, ?_⟩
    intro other hOther
    rw [List.mem_append, List.mem_singleton] at hOther
    rcases hOther with hOld | rfl
    · exact hStored other hOld
    · exact ⟨hEntry, hOff⟩

/-- The overtaking branch always has such a candidate chain to check. -/
theorem exists_sideBranch (hTree : node.Tree) (hCandidate : node.Candidate block prev active)
    (hRival : node.Rival block prev active) :
    ∃ stored forkHeight, node.SideBranch block stored forkHeight ∧ stored ≠ [] := by
  obtain ⟨forkHeight, fork, stored, hFork, hPath, hStored⟩ := hTree.exists_path (candidate_entry hCandidate)
  have hBranch : node.SideBranch block stored forkHeight :=
    ⟨fun index hIndex => (hStored index hIndex).1, fun index hIndex => (hStored index hIndex).2, fork, hFork, hPath⟩
  exact ⟨stored, forkHeight, hBranch, hTree.stored_ne_nil hCandidate hRival hBranch⟩

/-- Whatever its first block is, the loop stops there. -/
theorem not_acceptsFork (hTree : node.Tree) (hNew : node.entry block.getHash = none)
    (hIndexed : ∀ index ∈ stored, node.entry index.hash = some index) (hNonempty : stored ≠ [])
    (verifyScript : VerifyScript) : ¬ AcceptsFork verifyScript node block prev stored forkHeight := by
  rintro ⟨check, hCheck⟩
  cases stored with
  | nil => exact hNonempty rfl
  | cons first rest =>
    have hNe : first.hash ≠ block.getHash := by
      intro hEq
      have hEntry := hIndexed first List.mem_cons_self
      rw [hEq, hNew] at hEntry
      cases hEntry
    rw [checkFork, forkChainOf, List.reverse_cons, List.reverse_reverse, List.cons_append, List.foldlM_cons,
      checkForkBlock, hTree.checkBlock_eq] at hCheck
    cases hOk : blockOk block with
    | false =>
      rw [hOk] at hCheck
      cases hCheck
    | true =>
      rw [hOk, forkBlock, if_neg hNe] at hCheck
      cases hCheck

end Tree

/-- The loop agrees with the replay exactly on the branches that the replay rejects. -/
theorem acceptsFork_agrees_iff {verifyScript : VerifyScript} {node : Node} (hReach : Reachable verifyScript node)
    {block : Block} (hNew : node.entry block.getHash = none) {stored : List BlockIndex} {forkHeight : Nat}
    (hBranch : node.SideBranch block stored forkHeight) (hStored : stored ≠ []) (prev : BlockIndex) :
    (AcceptsFork verifyScript node block prev stored forkHeight ↔
      ReplayValid verifyScript (node.activeBlocks.take (forkHeight + 1)) (node.candidateBlocks block stored)) ↔
    ¬ ReplayValid verifyScript (node.activeBlocks.take (forkHeight + 1)) (node.candidateBlocks block stored) := by
  have hNot : ¬ AcceptsFork verifyScript node block prev stored forkHeight :=
    hReach.tree.not_acceptsFork hNew hBranch.indexed hStored verifyScript
  rw [iff_false_left hNot]

theorem tied_secondRival_evaluated : tied.entry secondRival.getHash = none ∧
    BlockIndex.make 1 (rivalBlock 2).getHash params.hashGenesisBlock ∉ tied.activeChain ∧
    tied.activeChain[0]? = some genesisIndex ∧
    (secondRival.hashPrevBlock ≠ (rivalBlock 1).getHash ∧
      tied.tips.getBlockTipMap[secondRival.hashPrevBlock]? =
        some (BlockIndex.make 1 (rivalBlock 2).getHash params.hashGenesisBlock).core) ∧
    blockOk secondRival = true ∧
    (tied.getBlock (rivalBlock 2).getHash).vtx = [plainCoinbase [2, 0] (50 * coin)] := by
  decide +kernel

theorem tied_sideBranch :
    tied.SideBranch secondRival [BlockIndex.make 1 (rivalBlock 2).getHash params.hashGenesisBlock] 0 where
  indexed index hIndex := by
    rw [List.mem_singleton.mp hIndex]
    exact Tree.entry_of_lookup tied_rival
  side index hIndex := by
    rw [List.mem_singleton.mp hIndex]
    exact tied_secondRival_evaluated.2.1
  path := ⟨genesisIndex, tied_secondRival_evaluated.2.2.1, rfl, rfl⟩

theorem acceptsFork_agrees_tied :
    (AcceptsFork anyScript tied secondRival (BlockIndex.make 1 (rivalBlock 2).getHash params.hashGenesisBlock)
        [BlockIndex.make 1 (rivalBlock 2).getHash params.hashGenesisBlock] 0 ↔
      ReplayValid anyScript (tied.activeBlocks.take 1)
        (tied.candidateBlocks secondRival [BlockIndex.make 1 (rivalBlock 2).getHash params.hashGenesisBlock])) ↔
    ¬ ReplayValid anyScript (tied.activeBlocks.take 1)
        (tied.candidateBlocks secondRival [BlockIndex.make 1 (rivalBlock 2).getHash params.hashGenesisBlock]) :=
  acceptsFork_agrees_iff tied_reachable tied_secondRival_evaluated.1 tied_sideBranch (List.cons_ne_nil _ _) _

/-- Two blocks with a coinbase only: the replay accepts them, the loop does not. -/
theorem exists_valid_fork_refused : ∃ (verifyScript : VerifyScript) (node : Node) (block : Block)
    (prev active : BlockIndex) (stored : List BlockIndex) (forkHeight : Nat), Reachable verifyScript node ∧
      node.Candidate block prev active ∧ node.Rival block prev active ∧ blockOk block = true ∧
      node.SideBranch block stored forkHeight ∧
      ReplayValid verifyScript (node.activeBlocks.take (forkHeight + 1)) (node.candidateBlocks block stored) ∧
      ¬ AcceptsFork verifyScript node block prev stored forkHeight := by
  obtain ⟨hNew, -, -, hRival, hOk, hBlock⟩ := tied_secondRival_evaluated
  have hFormat : ∀ tag : UInt8, TxFormat (plainCoinbase [tag, 0] (50 * coin)) := by
    intro tag
    apply txFormat_plainCoinbase
    · exact Nat.le_refl 2
    · simp
    · decide
  refine ⟨anyScript, tied, secondRival, BlockIndex.make 1 (rivalBlock 2).getHash params.hashGenesisBlock,
    BlockIndex.make 1 (rivalBlock 1).getHash params.hashGenesisBlock,
    [BlockIndex.make 1 (rivalBlock 2).getHash params.hashGenesisBlock], 0, tied_reachable,
    ⟨hNew, tied_rival, tied_activeTip⟩, ⟨hRival.1, hRival.2, rfl⟩, hOk,
    tied_sideBranch, ⟨?_, ?_, trivial⟩, ?_⟩
  · rw [BlockIndex.make, hBlock]
    exact vtxValid_coinbase (hFormat 2) (isCoinBase_plainCoinbase ..) _ _
  · exact vtxValid_coinbase (hFormat 3) (isCoinBase_plainCoinbase ..) _ _
  · exact tied_reachable.tree.not_acceptsFork hNew tied_sideBranch.indexed (List.cons_ne_nil _ _) anyScript

end Node

end BitcoinGpuMiner
