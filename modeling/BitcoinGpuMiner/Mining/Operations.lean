import BitcoinGpuMiner.Chain.ActiveChain
import BitcoinGpuMiner.Model.CreateNewBlock
import BitcoinGpuMiner.Pool.Moves

/-! # Histories of a node

Blocks and transactions arrive and templates are made, in any order. The chain stays a tree, the active tip has no
children in it, and the pools hold every transaction under its own hash.
-/

namespace BitcoinGpuMiner

open Foundation

set_option autoImplicit false

namespace Node

section Keyed

variable {verifyScript : VerifyScript} {node : Node}

theorem AcceptCase.keyed {block : Block} {outcome : Outcome} (hCase : AcceptCase verifyScript node block outcome)
    (hKeyed : node.memPool.Keyed) : outcome.node.memPool.Keyed := by
  cases hCase with
  | known | notExtended | branched | notBranched | crashed | notOvertaken | savedOnly => exact hKeyed
  | orphan =>
    obtain ⟨orphanBlocks, hNode⟩ := acceptOrphan_node node block
    rw [hNode]
    exact hKeyed
  | extended memPool hCandidate hTop hOk hValid hNull hPool => exact procOrphanTx_keyed (hKeyed.removeAll block.vtx) hPool
  | reorganised memPool hCandidate hRival hNull hHeight hOk hCheck hPool =>
    exact procOrphanTx_keyed (hKeyed.removeAll block.vtx) hPool

end Keyed

section Idle

variable {verifyScript : VerifyScript} {node : Node}

theorem removeAll_empty (vtx : List NetMessageTransaction) :
    vtx.foldl (fun memPool tx => memPool.remove tx.getHash) TXMemPool.empty = TXMemPool.empty := by
  induction vtx with
  | nil => rfl
  | cons tx rest ih =>
    have hRemove : TXMemPool.empty.remove tx.getHash = TXMemPool.empty := by simp [TXMemPool.remove, TXMemPool.empty]
    rw [List.foldl_cons, hRemove, ih]

theorem procOrphanTx_idle (hIdle : node.memPool.miningPool = ∅) :
    node.procOrphanTx verifyScript = .ok node.memPool := by
  have hNone : node.memPool.miningPool.toList = [] := by simp [hIdle]
  rw [procOrphanTx, hNone]
  rfl

theorem procOrphanTx_empty (hEmpty : node.memPool = TXMemPool.empty) :
    node.procOrphanTx verifyScript = .ok TXMemPool.empty := by
  rw [procOrphanTx_idle (hEmpty ▸ rfl), hEmpty]

theorem AcceptCase.poolEmpty {block : Block} {outcome : Outcome} (hCase : AcceptCase verifyScript node block outcome)
    (hEmpty : node.memPool = TXMemPool.empty) : outcome.node.memPool = TXMemPool.empty := by
  have hRemoved : block.vtx.foldl (fun memPool tx => memPool.remove tx.getHash) node.memPool = TXMemPool.empty := by
    rw [hEmpty, removeAll_empty]
  cases hCase with
  | known | notExtended | branched | notBranched | crashed | notOvertaken | savedOnly => exact hEmpty
  | orphan =>
    obtain ⟨orphanBlocks, hNode⟩ := acceptOrphan_node node block
    rw [hNode]
    exact hEmpty
  | extended memPool hCandidate hTop hOk hValid hNull hPool =>
    exact Except.ok.inj (hPool.symm.trans (procOrphanTx_empty hRemoved))
  | reorganised memPool hCandidate hRival hNull hHeight hOk hCheck hPool =>
    exact Except.ok.inj (hPool.symm.trans (procOrphanTx_empty hRemoved))

theorem initial_memPool : initial.memPool = TXMemPool.empty := by
  rw [initial_eq]
  exact removeAll_empty [genesisTransaction]

theorem Run.poolEmpty {allowed : Node → Block → Prop} (hRun : Run verifyScript allowed node) :
    node.memPool = TXMemPool.empty := by
  refine (Run.invariant (motive := fun node => node.memPool = TXMemPool.empty) initial_memPool ?_ hRun).2
  intro node block node' result hTree hEmpty _ hAccept
  have hCase := hTree.acceptBlock_cases verifyScript block
  rw [hAccept] at hCase
  exact hCase.poolEmpty hEmpty

theorem acceptTx_of_txOk {memPool : TXMemPool} {tx : NetMessageTransaction} {tip : BlockIndex}
    (hTip : node.tips.getActiveTip = some tip)
    (hNew : (memPool.pool.contains tx.getHash || memPool.orphanPool.contains tx.getHash ||
      memPool.miningPool.contains tx.getHash) = false)
    (hFound : node.ledger.allInputsFound tx = true)
    (hOk : TxOk verifyScript node.ledger (scriptFlagsAt (tip.height + 1)) (tip.height + 1) tx) :
    node.acceptTx verifyScript memPool tx = .ok ({ memPool with pool := memPool.pool.insert tx.getHash tx }, true) := by
  exact acceptTx_pooled hNew hFound hTip ((checkTransaction_eq_some_iff ..).mpr ⟨hOk, rfl⟩)

/-- A transaction with all its inputs in the index is taken only after the check for the next height. -/
theorem txOk_of_acceptTx {memPool memPool' : TXMemPool} {tx : NetMessageTransaction} {tip : BlockIndex}
    (hTip : node.tips.getActiveTip = some tip) (hFound : node.ledger.allInputsFound tx = true)
    (hAccept : node.acceptTx verifyScript memPool tx = .ok (memPool', true)) :
    TxOk verifyScript node.ledger (scriptFlagsAt (tip.height + 1)) (tip.height + 1) tx := by
  simp only [acceptTx, hFound, hTip, Bool.not_true, Bool.false_eq_true, if_false] at hAccept
  split at hAccept
  · cases hAccept
  split at hAccept
  · cases hAccept
  · cases hAccept
  case h_3 hCheck => exact ((checkTransaction_eq_some_iff ..).mp hCheck).1

end Idle

/-- What can happen to a node. -/
inductive NodeStep (verifyScript : VerifyScript) : Node → Node → Prop where
  | acceptBlock {node node' : Node} (block : Block) {result : Bool}
      (hAccept : acceptBlock verifyScript node block = ⟨node', .ok result⟩) : NodeStep verifyScript node node'
  | acceptTx {node : Node} {tx : NetMessageTransaction} {memPool : TXMemPool} {result : Bool}
      (hAccept : node.acceptTx verifyScript node.memPool tx = .ok (memPool, result)) :
      NodeStep verifyScript node { node with memPool := memPool }
  | createNewBlock {node : Node} {scriptPubKeyIn : CScript} {time : UInt32} {memPool : TXMemPool} {block : Block}
      (hCreate : node.createNewBlock scriptPubKeyIn time = .ok (memPool, block)) :
      NodeStep verifyScript node { node with memPool := memPool }
  | undoMiningTxs (node : Node) :
      NodeStep verifyScript node { node with memPool := node.memPool.undoMiningTxs }

/-- Finitely many operations from the state after `Initialize`. -/
def History (verifyScript : VerifyScript) (node : Node) : Prop :=
  Relation.ReflTransGen (NodeStep verifyScript) initial node

structure Sound (node : Node) : Prop where
  tree : node.Tree
  keyed : node.memPool.Keyed

section History

variable {verifyScript : VerifyScript} {node node' : Node}

theorem Sound.withPool (hSound : node.Sound) {memPool : TXMemPool} (hKeyed : memPool.Keyed) :
    Sound { node with memPool := memPool } := ⟨hSound.tree.congr rfl rfl rfl, hKeyed⟩

/-- In a tree the work required of a template is the limit. -/
theorem createNewBlock_ok (hTree : node.Tree) {tip : BlockIndex} (hTip : node.tips.getActiveTip = some tip)
    (scriptPubKeyIn : CScript) (time : UInt32) : node.createNewBlock scriptPubKeyIn time =
      .ok ((getNewBlockTxs node.ledger node.memPool).memPool,
        { templateBlock tip scriptPubKeyIn time (getNewBlockTxs node.ledger node.memPool) with
          nBits := proofOfWorkLimit }) := by
  obtain ⟨lastBlock, hLast, -⟩ := hTree.stored _ tip (hTree.active_entry hTip)
  have hGet : node.getBlock tip.hash = lastBlock := by rw [getBlock, hLast, Option.getD_some]
  rw [createNewBlock, hTip]
  simp only [hGet, hTree.getNextWorkRequired_eq hTip hLast]

theorem createNewBlock_eq_ok {scriptPubKeyIn : CScript} {time : UInt32} {memPool : TXMemPool} {block : Block}
    (hTree : node.Tree) (hCreate : node.createNewBlock scriptPubKeyIn time = .ok (memPool, block)) :
    ∃ tip, node.tips.getActiveTip = some tip ∧ memPool = (getNewBlockTxs node.ledger node.memPool).memPool ∧
      block = { templateBlock tip scriptPubKeyIn time (getNewBlockTxs node.ledger node.memPool) with
        nBits := proofOfWorkLimit } := by
  obtain ⟨tip, hTip⟩ := hTree.exists_active
  rw [createNewBlock_ok hTree hTip] at hCreate
  cases hCreate
  exact ⟨tip, hTip, rfl, rfl⟩

theorem NodeStep.sound (hStep : NodeStep verifyScript node node') (hSound : node.Sound) : node'.Sound := by
  cases hStep with
  | acceptBlock block hAccept =>
    have hCase := hSound.tree.acceptBlock_cases verifyScript block
    rw [hAccept] at hCase
    exact ⟨hSound.tree.acceptCase hCase, hCase.keyed hSound.keyed⟩
  | acceptTx hAccept => exact hSound.withPool (acceptTx_keyed hSound.keyed hAccept)
  | createNewBlock hCreate =>
    obtain ⟨tip, -, rfl, -⟩ := createNewBlock_eq_ok hSound.tree hCreate
    exact hSound.withPool (getNewBlockTxs_keyed node.ledger hSound.keyed)
  | undoMiningTxs => exact hSound.withPool hSound.keyed.undoMiningTxs

theorem initial_sound : initial.Sound := by
  refine ⟨initial_tree, ?_⟩
  rw [initial_eq]
  exact ⟨KeyedBy.empty.erase _, KeyedBy.empty.erase _⟩

theorem History.sound (hHistory : History verifyScript node) : node.Sound := by
  induction hHistory with
  | refl => exact initial_sound
  | tail _ hStep ih => exact hStep.sound ih

theorem Run.history {allowed : Node → Block → Prop} (hRun : Run verifyScript allowed node) :
    History verifyScript node := by
  induction hRun with
  | refl => exact .refl
  | tail _ hStep ih =>
    obtain ⟨block, -, result, hAccept⟩ := hStep
    exact ih.tail (.acceptBlock block hAccept)

end History

/-- No indexed block is a child of the active tip. -/
def TipChildless (node : Node) : Prop :=
  ∀ active, node.tips.getActiveTip = some active → ∀ h index, node.entry h = some index →
    h ≠ params.hashGenesisBlock → index.hashPrevBlock ≠ active.hash

section Tip

variable {verifyScript : VerifyScript} {node node' : Node} {block : Block} {prev active : BlockIndex}

theorem TipChildless.congr (hChildless : node.TipChildless) (hIndex : node'.blockIndex = node.blockIndex)
    (hTips : node'.tips = node.tips) : node'.TipChildless := by
  intro active hActive h index hEntry
  rw [hTips] at hActive
  rw [entry, hIndex] at hEntry
  exact hChildless active hActive h index hEntry

/-- A new tip has a hash that no entry names as its parent. -/
theorem TipChildless.withBlock (hChildless : node.TipChildless) (hTree : node.Tree)
    (hCandidate : node.Candidate block prev active) {tip : Bool}
    (hPlace : block.hashPrevBlock ≠ active.hash ∨ (tip = true ∧ prev.height = active.height)) :
    TipChildless (node.withBlock block prev tip) := by
  have hTop : ∀ active', (node.withBlock block prev tip).tips.getActiveTip = some active' →
      active' = newIndex block prev ∨ (active' = active ∧ block.hashPrevBlock ≠ active.hash) := by
    intro active' hActive'
    cases tip with
    | false => exact .inr ⟨Option.some.inj (hActive'.symm.trans hCandidate.active), hPlace.resolve_right (by simp)⟩
    | true =>
      rw [hTree.activeTip_withBlock hCandidate] at hActive'
      split at hActive'
      case isTrue => exact .inl (Option.some.inj hActive').symm
      case isFalse hNot =>
        refine .inr ⟨(Option.some.inj hActive').symm, hPlace.resolve_right ?_⟩
        rintro ⟨-, hHeight⟩
        exact hNot (.inl (by rw [newIndex_height]; omega))
  intro active' hActive' h index hEntry hNe hParent
  rcases hTop active' hActive' with rfl | ⟨rfl, hOther⟩ <;>
    rcases hTree.entry_withBlock_cases hCandidate.parent hEntry with ⟨-, rfl⟩ | ⟨-, hOld⟩
  · rw [newIndex_hashPrevBlock, newIndex_hash] at hParent
    have hSelf := Tree.candidate_entry hCandidate
    rw [hParent, hCandidate.new] at hSelf
    cases hSelf
  · obtain ⟨-, parent, hEntryParent, -⟩ := hTree.parent h index hOld hNe
    rw [hParent, newIndex_hash, hCandidate.new] at hEntryParent
    cases hEntryParent
  · exact hOther hParent
  · exact hChildless active' hCandidate.active h index hOld hNe hParent

theorem TipChildless.onTip (hChildless : node.TipChildless) (hTree : node.Tree)
    (hCandidate : node.Candidate block prev active)
    (hPlace : block.hashPrevBlock ≠ active.hash ∨ prev.height = active.height) :
    TipChildless (node.withBlock block prev true) :=
  hChildless.withBlock hTree hCandidate (hPlace.imp_right fun hHeight => ⟨rfl, hHeight⟩)

theorem AcceptCase.tipChildless {outcome : Outcome} (hCase : AcceptCase verifyScript node block outcome)
    (hTree : node.Tree) (hChildless : node.TipChildless) : outcome.node.TipChildless := by
  cases hCase with
  | known | notExtended | notBranched | crashed | notOvertaken => exact hChildless
  | orphan =>
    obtain ⟨orphanBlocks, hNode⟩ := acceptOrphan_node node block
    rw [hNode]
    exact hChildless.congr rfl rfl
  | extended memPool hCandidate hTop =>
    have hHeight := hTree.prev_core_eq_active hCandidate hTop
    refine (hChildless.onTip hTree hCandidate (.inr ?_)).congr rfl rfl
    rw [← hHeight, BlockIndex.core_height]
  | branched hCandidate hBeside => exact hChildless.withBlock hTree hCandidate (.inl hBeside.other)
  | savedOnly hCandidate hRival => exact hChildless.withBlock hTree hCandidate (.inl hRival.other)
  | reorganised memPool hCandidate hRival =>
    exact (hChildless.onTip hTree hCandidate (.inl hRival.other)).congr rfl rfl

theorem initial_tipChildless : initial.TipChildless := by
  intro active hActive h index hEntry hNe
  exact absurd (initial_entry_cases hEntry).1 hNe

theorem History.tipChildless (hHistory : History verifyScript node) : node.TipChildless := by
  induction hHistory with
  | refl => exact initial_tipChildless
  | tail hHistory hStep ih =>
    cases hStep with
    | acceptBlock block hAccept =>
      have hTree := (History.sound hHistory).tree
      have hCase := hTree.acceptBlock_cases verifyScript block
      rw [hAccept] at hCase
      exact hCase.tipChildless hTree ih
    | acceptTx | createNewBlock | undoMiningTxs => exact ih.congr rfl rfl

/-- A block on the active tip is new unless an indexed block with another header has its hash. -/
theorem Tree.fresh_iff (hTree : node.Tree) (hChildless : node.TipChildless) (hActive : node.tips.getActiveTip = some active)
    (hNull : active.hash ≠ Uint256.null) (hTop : block.hashPrevBlock = active.hash) : node.entry block.getHash = none ↔
      ∀ h index other, node.entry h = some index → node.blocks[h]? = some other → other.getHash = block.getHash →
        other.toBlockHeader = block.toBlockHeader := by
  constructor
  · intro hFresh h index other hEntry hStored hHash
    obtain ⟨stored, hGet, hKey, -⟩ := hTree.stored h index hEntry
    cases hStored.symm.trans hGet
    rw [← hHash, hKey, hEntry] at hFresh
    cases hFresh
  · intro hApart
    cases hEntry : node.entry block.getHash with
    | none => rfl
    | some index =>
      obtain ⟨other, hGet, hKey, hPrev, -⟩ := hTree.stored _ index hEntry
      have hHeader := hApart _ index other hEntry hGet hKey
      have hParent : index.hashPrevBlock = active.hash :=
        hPrev.symm.trans ((congrArg BlockHeader.hashPrevBlock hHeader).trans hTop)
      by_cases hGenesis : block.getHash = params.hashGenesisBlock
      · rw [hGenesis, hTree.genesis] at hEntry
        cases hEntry
        exact absurd hParent.symm hNull
      · exact absurd hParent (hChildless active hActive _ index hEntry hGenesis)

end Tip

end Node

end BitcoinGpuMiner
