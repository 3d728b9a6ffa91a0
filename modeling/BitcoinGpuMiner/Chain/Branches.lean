import BitcoinGpuMiner.Chain.Work
import BitcoinGpuMiner.Chain.Transactions
import BitcoinGpuMiner.Model.AcceptBlock

/-! # The branches of `AcceptBlock` in a block tree

Each branch is reduced to conditions on the block and on the ledger. The reorganisation
branch has its own module.
-/

namespace BitcoinGpuMiner

open Foundation

set_option autoImplicit false

/-- The script flags depend on the height alone, since segregated witness starts at zero. -/
def scriptFlagsAt (height : Int) : UInt32 :=
  ScriptValidation.getBlockScriptFlags (BlockIndex.make height Uint256.null Uint256.null)

theorem getBlockScriptFlags_make {height : Int} (hHeight : 0 ≤ height) (hash hashPrevBlock : Uint256) :
    ScriptValidation.getBlockScriptFlags (BlockIndex.make height hash hashPrevBlock) = scriptFlagsAt height := by
  have hWitness : ∀ prev, ScriptValidation.isWitnessEnabled (BlockIndex.make height hash prev) = true := by
    intro prev
    simp only [ScriptValidation.isWitnessEnabled, decide_eq_true_eq]
    split
    · decide
    · exact hHeight
  have hException : params.bip16Exception.isNull = true := by decide
  unfold scriptFlagsAt ScriptValidation.getBlockScriptFlags
  rw [hWitness]
  simp only [hException, Bool.true_or]
  rfl

/-- The transactions of a block, each judged against the ledger before the block. -/
def VtxValid (verifyScript : VerifyScript) (ledger : Ledger) (height : Int) (vtx : List NetMessageTransaction) : Prop :=
  ∀ tx ∈ vtx, TxOk verifyScript ledger (scriptFlagsAt height) height tx

namespace Node

/-- Whether an orphan block waits for `hash`. -/
def waiting (node : Node) (hash : Uint256) : Bool := node.orphanBlocks.any fun entry => entry.1 == hash

theorem connectOrphan_eq (node : Node) (hash : Uint256) :
    connectOrphan node hash = ⟨node, if node.waiting hash then .error .deadlock else .ok true⟩ := by
  unfold connectOrphan waiting
  split <;> rfl

theorem acceptTx_returns (verifyScript : VerifyScript) {node : Node} {active : BlockIndex}
    (hActive : node.tips.getActiveTip = some active) (memPool : TXMemPool) (tx : NetMessageTransaction) :
    ∃ r, node.acceptTx verifyScript memPool tx = .ok r := by
  obtain ⟨r, hCheck⟩ := checkTransaction_returns verifyScript node.ledger (scriptFlagsAt (active.height + 1))
    (active.height + 1) tx ⟨0, 0⟩
  unfold acceptTx
  simp only [hActive]
  split
  · exact ⟨_, rfl⟩
  split
  · exact ⟨_, rfl⟩
  rw [scriptFlagsAt] at hCheck
  rw [hCheck]
  cases r <;> exact ⟨_, rfl⟩

theorem procOrphanTx_returns (verifyScript : VerifyScript) {node : Node} {active : BlockIndex}
    (hActive : node.tips.getActiveTip = some active) : ∃ memPool, node.procOrphanTx verifyScript = .ok memPool := by
  unfold procOrphanTx
  generalize node.memPool.miningPool.toList = entries
  generalize node.memPool = memPool
  induction entries generalizing memPool with
  | nil => exact ⟨memPool, rfl⟩
  | cons entry entries ih =>
    have hEntry : ∃ next, node.procOrphanEntry verifyScript memPool entry = .ok next := by
      obtain ⟨r, hr⟩ := acceptTx_returns verifyScript hActive memPool entry.2
      unfold procOrphanEntry
      simp only [hr]
      repeat' split
      all_goals exact ⟨_, rfl⟩
    obtain ⟨next, hNext⟩ := hEntry
    rw [List.foldlM_cons, hNext]
    exact ih next

/-- Once a block is in, the call ends well unless an orphan waits for the block. -/
theorem acceptBlockOK_eq (verifyScript : VerifyScript) {node : Node} {active : BlockIndex}
    (hActive : node.tips.getActiveTip = some active) (hash : Uint256) :
    ∃ memPool, node.procOrphanTx verifyScript = .ok memPool ∧ acceptBlockOK verifyScript node hash =
      ⟨{ node with memPool := memPool }, if node.waiting hash then .error .deadlock else .ok true⟩ := by
  obtain ⟨memPool, hPool⟩ := procOrphanTx_returns verifyScript hActive
  refine ⟨memPool, hPool, ?_⟩
  rw [acceptBlockOK, hPool]
  exact connectOrphan_eq ..

/-- The node after a block has been added on top of the active tip. -/
def extend (node : Node) (block : Block) (prev : BlockIndex) : Node :=
  (node.withBlock block prev true).processTransactions block.vtx block.getHash (prev.height + 1)

@[simp] theorem extend_ledger (node : Node) (block : Block) (prev : BlockIndex) :
    (node.extend block prev).ledger =
      node.ledger.processTransactions block.vtx block.getHash (prev.height + 1) := rfl

theorem currentHeight_of_parent {hash : Uint256} (hGenesis : hash ≠ params.hashGenesisBlock) (prev : BlockIndex) :
    currentHeight hash (some prev) = prev.height + 1 := by
  rw [currentHeight, if_neg hGenesis]

namespace Tree

variable {node : Node} {block : Block} {prev active : BlockIndex}

theorem ne_genesis_of_new (hTree : node.Tree) (hNew : node.entry block.getHash = none) :
    block.getHash ≠ params.hashGenesisBlock := by
  intro hEq
  rw [hEq, hTree.genesis] at hNew
  cases hNew

theorem contains_eq_false (hNew : node.entry block.getHash = none) :
    node.blockIndex.contains block.getHash = false := by
  rw [contains_eq_isSome, (entry_eq_none_iff ..).mp hNew, Option.isSome_none]

theorem parent_nonneg (hTree : node.Tree) (hParent : node.blockIndex[block.hashPrevBlock]? = some prev) :
    0 ≤ prev.height :=
  hTree.nonneg _ prev.core ((entry_eq_some_iff ..).mpr ⟨prev, hParent, rfl⟩)

section Longest

variable (verifyScript : VerifyScript)

theorem acceptLongest_eq (hTree : node.Tree) (hNew : node.entry block.getHash = none)
    (hParent : node.blockIndex[block.hashPrevBlock]? = some prev) (hOk : blockOk block = true)
    (hValid : VtxValid verifyScript node.ledger (prev.height + 1) block.vtx) (hPrev : prev.hash ≠ Uint256.null) :
    acceptLongest verifyScript node block (some prev) =
      acceptBlockOK verifyScript (node.extend block prev) block.getHash := by
  have hHeight := hTree.parent_nonneg hParent
  unfold acceptLongest
  simp only [hTree.checkBlock_eq, hOk, currentHeight_of_parent (hTree.ne_genesis_of_new hNew),
    getBlockScriptFlags_make (Int.le_add_one hHeight)]
  rw [(checkTransactions_eq_some_iff ..).mpr ⟨hValid, rfl⟩]
  simp only [Option.getD_some, saveBlock_of_ne_null node block true hPrev]
  rfl

theorem acceptLongest_refused (hTree : node.Tree) (hNew : node.entry block.getHash = none)
    (hParent : node.blockIndex[block.hashPrevBlock]? = some prev)
    (hNot : ¬ (blockOk block = true ∧ VtxValid verifyScript node.ledger (prev.height + 1) block.vtx ∧
      prev.hash ≠ Uint256.null)) :
    acceptLongest verifyScript node block (some prev) = ⟨node, .ok false⟩ := by
  have hHeight := hTree.parent_nonneg hParent
  have hGenesis := hTree.ne_genesis_of_new hNew
  unfold acceptLongest
  simp only [hTree.checkBlock_eq, currentHeight_of_parent hGenesis, getBlockScriptFlags_make (Int.le_add_one hHeight)]
  cases hOk : blockOk block with
  | false => rfl
  | true =>
    obtain ⟨r, hCheck⟩ := checkTransactions_returns verifyScript node.ledger (scriptFlagsAt (prev.height + 1))
      (prev.height + 1) block.vtx
    simp only [hCheck]
    cases r with
    | none => rfl
    | some result =>
      have hValid := ((checkTransactions_eq_some_iff ..).mp hCheck).1
      have hNull : prev.hash = Uint256.null :=
        Decidable.byContradiction fun hNe => hNot ⟨hOk, hValid, hNe⟩
      simp only [Option.getD_some, saveBlock_of_null node true hNull hGenesis]

end Longest

section Side

theorem acceptSide_eq (hTree : node.Tree) (hNew : node.entry block.getHash = none) :
    acceptSide node block (some prev) =
      if blockOk block = true ∧ prev.hash ≠ Uint256.null then ⟨node.withBlock block prev true, .ok true⟩
      else ⟨node, .ok false⟩ := by
  unfold acceptSide
  simp only [hTree.checkBlock_eq, Option.getD_some]
  cases hOk : blockOk block with
  | false => simp
  | true =>
    by_cases hNull : prev.hash = Uint256.null
    · simp [saveBlock_of_null node true hNull (hTree.ne_genesis_of_new hNew), hNull]
    · simp [saveBlock_of_ne_null node block true hNull, hNull]

end Side

end Tree

end Node

end BitcoinGpuMiner
