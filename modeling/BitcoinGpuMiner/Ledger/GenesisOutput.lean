import BitcoinGpuMiner.Chain.NullPointers
import BitcoinGpuMiner.Foundation.Transitions
import BitcoinGpuMiner.Ledger.DoubleSpend
import BitcoinGpuMiner.Ledger.IndexRule
import BitcoinGpuMiner.Mining.Operations

/-! # The output of the genesis block

`Initialize` records the transaction of the genesis block like that of any other block. Nothing but its maturity
keeps its output from being spent, and only where the inputs are looked at.
-/

namespace BitcoinGpuMiner

open Foundation

set_option autoImplicit false

def NetMessageTransaction.SpendsGenesis (tx : NetMessageTransaction) : Prop :=
  ∃ txIn ∈ tx.vin, txIn.previousOutput ∈ genesisTransaction.outPoints

/-- An entry under the hash of the genesis transaction is a coinbase of some height. -/
def GenesisEntry (hash : Uint256) (idx : TxIdx) : Prop :=
  hash = genesisTransaction.getHash → idx.tx.isCoinBase = true ∧ 0 ≤ idx.height

theorem mem_genesisOutPoints {pt : OutPoint} :
    pt ∈ genesisTransaction.outPoints ↔ pt = ⟨genesisTransaction.getHash, 0⟩ := List.mem_singleton

theorem genesisOutput_ne_null : (⟨genesisTransaction.getHash, 0⟩ : OutPoint) ≠ OutPoint.null := by
  intro hEq
  cases congrArg OutPoint.outPutIdx hEq

section Checks

variable {verifyScript : VerifyScript} {ledger : Ledger} {scriptFlags : UInt32} {height : Int} {tx : NetMessageTransaction}

theorem not_spendsGenesis_of_isCoinBase (hCoinBase : tx.isCoinBase = true) : ¬ tx.SpendsGenesis := by
  rintro ⟨txIn, hTxIn, hGenesis⟩
  obtain ⟨only, hVin, hNull⟩ := (NetMessageTransaction.isCoinBase_iff tx).mp hCoinBase
  rw [hVin, List.mem_singleton] at hTxIn
  rw [hTxIn, hNull, mem_genesisOutPoints] at hGenesis
  exact genesisOutput_ne_null hGenesis.symm

/-- Below the maturity of a coinbase the check stops every such input. -/
theorem TxOk.not_spendsGenesis (hOk : TxOk verifyScript ledger scriptFlags height tx)
    (hEntries : AllEntries GenesisEntry ledger.txIndex) (hLow : height < coinbaseMaturity) : ¬ tx.SpendsGenesis := by
  cases hCoinBase : tx.isCoinBase with
  | true => exact not_spendsGenesis_of_isCoinBase hCoinBase
  | false =>
    rintro ⟨txIn, hTxIn, hGenesis⟩
    obtain ⟨i, hGet⟩ := List.mem_iff_getElem?.mp hTxIn
    obtain ⟨idx, out, hIdx, -, hMature, -⟩ := ((hOk.spend hCoinBase).inputs i txIn hGet).output
    rw [mem_genesisOutPoints.mp hGenesis] at hIdx
    obtain ⟨hIsCoinBase, hNonneg⟩ := hEntries _ idx hIdx rfl
    have := hMature hIsCoinBase
    omega

/-- In a reorganisation that goes through, the new block has coinbases only. -/
theorem isCoinBase_of_overlayCheck {node : Node} {block : Block} {result : CheckTransactionResult}
    (hCheck : Node.overlayCheck verifyScript node block = .ok (some result)) :
    ∀ tx ∈ block.vtx, tx.isCoinBase = true := by
  intro tx hTx
  obtain ⟨before, after, hPassed⟩ := exists_check_of_loop hCheck tx hTx
  by_contra hNot
  have hFork : (0 : Int) < 1 := by decide
  rcases checkTransaction_emptyOverlay verifyScript node.ledger (scriptFlagsAt 2) 2 hFork
    (format_of_checkTransaction hPassed) (Bool.eq_false_iff.mpr hNot) before with ⟨-, hFault⟩ | ⟨-, hNone⟩
  · cases hFault.symm.trans hPassed
  · cases hNone.symm.trans hPassed

end Checks

namespace Node

variable {verifyScript : VerifyScript} {node : Node} {block : Block}

/-- The block would make a tip the highest one, below the height at which the genesis output matures. -/
def BelowMaturity (node : Node) (block : Block) : Prop :=
  ∃ tip active : BlockIndex, node.tips.getTip block.hashPrevBlock = some tip ∧ node.tips.getActiveTip = some active ∧
    active.height ≤ tip.height ∧ tip.height + 1 < coinbaseMaturity

theorem AcceptCase.not_spendsGenesis {outcome : Outcome} (hCase : AcceptCase verifyScript node block outcome)
    (hTree : node.Tree) (hEntries : AllEntries GenesisEntry node.ledger.txIndex) (hBelow : node.BelowMaturity block)
    (hAccepted : outcome.result = .ok true) : ∀ tx ∈ block.vtx, ¬ tx.SpendsGenesis := by
  obtain ⟨tip, active, hTip, hActive, hHighest, hLow⟩ := hBelow
  have hEntry : node.entry block.hashPrevBlock = some tip := hTree.tipEntry _ _ hTip
  have hHeight {prev other : BlockIndex} (hCandidate : node.Candidate block prev other) : prev.height = tip.height := by
    cases (Tree.candidate_entry hCandidate).symm.trans hEntry
    rfl
  cases hCase with
  | known | notExtended | notBranched | crashed | notOvertaken => cases hAccepted
  | orphan hNew hParent => cases hParent.symm.trans hEntry
  | extended memPool hCandidate hTop hOk hValid =>
    intro tx hTx
    rw [hHeight hCandidate] at hValid
    exact (hValid tx hTx).not_spendsGenesis hEntries hLow
  | branched hCandidate hBeside =>
    -- a tip as high as the active one is not beside it
    cases hCandidate.active.symm.trans hActive
    rcases hBeside.low with hNone | hBehind
    · cases hNone.symm.trans hTip
    · rw [hHeight hCandidate] at hBehind
      omega
  | savedOnly hCandidate hRival hNull hOne hOk hCheck =>
    rcases hCheck with ⟨fault, -, rfl⟩ | ⟨-, rfl⟩
    · cases hAccepted
    · cases hAccepted
  | reorganised memPool hCandidate hRival hNull hOne hOk hCheck =>
    intro tx hTx
    exact not_spendsGenesis_of_isCoinBase (isCoinBase_of_overlayCheck hCheck tx hTx)

end Node

/-! The calls that bring blocks and transactions, with what has been accepted so far. -/

namespace Intake

inductive Call where
  | acceptBlock (block : Block)
  | acceptTx (tx : NetMessageTransaction)

structure State where
  node : Node
  blocks : List Block
  txs : List NetMessageTransaction

def start : State := ⟨Node.initial, [], []⟩

/-- No next state where the call does not return. -/
def step (verifyScript : VerifyScript) (state : State) : Call → Option State
  | .acceptBlock block =>
    match Node.acceptBlock verifyScript state.node block with
    | ⟨_, .error _⟩ => none
    | ⟨node, .ok accepted⟩ => some ⟨node, if accepted then block :: state.blocks else state.blocks, state.txs⟩
  | .acceptTx tx =>
    match state.node.acceptTx verifyScript state.node.memPool tx with
    | .error _ => none
    | .ok (memPool, accepted) =>
      some ⟨{ state.node with memPool := memPool }, state.blocks, if accepted then tx :: state.txs else state.txs⟩

/-- No other transaction gets the hash of the genesis transaction, and one that spends its output comes only where
its inputs are looked at while the output is not mature. -/
def Guarded (state : State) : Call → Prop
  | .acceptBlock block =>
    (∀ tx ∈ block.vtx, tx.getHash = genesisTransaction.getHash → tx.isCoinBase = true) ∧
      ((∃ tx ∈ block.vtx, tx.SpendsGenesis) → state.node.BelowMaturity block)
  | .acceptTx tx => tx.SpendsGenesis → state.node.ledger.allInputsFound tx = true ∧
      ∃ active : BlockIndex, state.node.tips.getActiveTip = some active ∧ active.height + 1 < coinbaseMaturity

structure Unspent (state : State) : Prop where
  blocks : ∀ block ∈ state.blocks, ∀ tx ∈ block.vtx, ¬ tx.SpendsGenesis
  txs : ∀ tx ∈ state.txs, ¬ tx.SpendsGenesis

structure Sound (state : State) : Prop where
  tree : state.node.Tree
  entries : AllEntries GenesisEntry state.node.ledger.txIndex
  unspent : Unspent state

section Steps

variable {verifyScript : VerifyScript} {state state' : State}

theorem step_acceptBlock {block : Block} {node : Node} {accepted : Bool}
    (hAccept : Node.acceptBlock verifyScript state.node block = ⟨node, .ok accepted⟩) :
    step verifyScript state (.acceptBlock block) =
      some ⟨node, if accepted then block :: state.blocks else state.blocks, state.txs⟩ := by
  rw [step, hAccept]

theorem step_acceptTx {tx : NetMessageTransaction} {memPool : TXMemPool} {accepted : Bool}
    (hAccept : state.node.acceptTx verifyScript state.node.memPool tx = .ok (memPool, accepted)) :
    step verifyScript state (.acceptTx tx) = some ⟨{ state.node with memPool := memPool }, state.blocks,
      if accepted then tx :: state.txs else state.txs⟩ := by
  rw [step, hAccept]

theorem start_sound : Sound start where
  tree := Node.initial_tree
  entries := by
    rw [start, Node.initial_eq]
    exact AllEntries.empty.insert fun _ => ⟨rfl, Int.le_refl 0⟩
  unspent := ⟨by simp [start], by simp [start]⟩

theorem Sound.acceptBlock {block : Block} (hSound : Sound state) (hGuarded : Guarded state (.acceptBlock block))
    (hStep : step verifyScript state (.acceptBlock block) = some state') : Sound state' := by
  have hCase := hSound.tree.acceptBlock_cases verifyScript block
  have hTree := hSound.tree.acceptCase hCase
  rw [step] at hStep
  cases hOutcome : Node.acceptBlock verifyScript state.node block with
  | mk node result =>
    rw [hOutcome] at hStep hCase hTree
    cases result with
    | error fault => cases hStep
    | ok accepted =>
      cases hStep
      refine ⟨hTree, ?_, ?_, hSound.unspent.txs⟩
      · apply hCase.allEntries hSound.tree hSound.entries
        intro tx hTx hFormat height hNonneg hHash
        exact ⟨hGuarded.1 tx hTx hHash, hNonneg⟩
      · cases accepted with
        | false => exact hSound.unspent.blocks
        | true =>
          refine List.forall_mem_cons.mpr ⟨?_, hSound.unspent.blocks⟩
          intro tx hTx hSpends
          exact hCase.not_spendsGenesis hSound.tree hSound.entries (hGuarded.2 ⟨tx, hTx, hSpends⟩) rfl tx hTx hSpends

theorem Sound.acceptTx {tx : NetMessageTransaction} (hSound : Sound state) (hGuarded : Guarded state (.acceptTx tx))
    (hStep : step verifyScript state (.acceptTx tx) = some state') : Sound state' := by
  rw [step] at hStep
  cases hAccept : state.node.acceptTx verifyScript state.node.memPool tx with
  | error fault =>
    rw [hAccept] at hStep
    cases hStep
  | ok answer =>
    obtain ⟨memPool, accepted⟩ := answer
    rw [hAccept] at hStep
    cases hStep
    refine ⟨hSound.tree.congr rfl rfl rfl, hSound.entries, hSound.unspent.blocks, ?_⟩
    cases accepted with
    | false => exact hSound.unspent.txs
    | true =>
      refine List.forall_mem_cons.mpr ⟨?_, hSound.unspent.txs⟩
      intro hSpends
      obtain ⟨hFound, active, hActive, hLow⟩ := hGuarded hSpends
      exact (Node.txOk_of_acceptTx hActive hFound hAccept).not_spendsGenesis hSound.entries hLow hSpends

/-- In a run of guarded calls the output of the genesis block stays where it is. -/
theorem genesis_unspent (hRun : Reaches (step verifyScript) Guarded start state) : Unspent state := by
  refine Sound.unspent (hRun.invariant start_sound ?_)
  intro state call state' hSound hGuarded hStep
  cases call with
  | acceptBlock block => exact hSound.acceptBlock hGuarded hStep
  | acceptTx tx => exact hSound.acceptTx hGuarded hStep

/-- On a new node the spend comes a hundred blocks too early. -/
theorem genesis_unspent_early : ∃ state, Reaches (step anyScript) Guarded start state ∧
    step anyScript start (.acceptTx (plainSpend ⟨genesisTransaction.getHash, 0⟩ (50 * coin))) = some state ∧
    Unspent state := by
  have hEvaluated : Node.initial.ledger.allInputsFound (plainSpend ⟨genesisTransaction.getHash, 0⟩ (50 * coin)) = true ∧
      (step anyScript start (.acceptTx (plainSpend ⟨genesisTransaction.getHash, 0⟩ (50 * coin)))).isSome = true := by
    decide +kernel
  obtain ⟨state, hStep⟩ := Option.isSome_iff_exists.mp hEvaluated.2
  have hRun : Reaches (step anyScript) Guarded start state := by
    refine Reaches.next .refl ?_ hStep
    intro hSpends
    exact ⟨hEvaluated.1, genesisIndex, Node.initial_activeTip, by decide⟩
  exact ⟨state, hRun, hStep, genesis_unspent hRun⟩

end Steps

end Intake

/-! A hundred blocks later the output is mature. -/

namespace GenesisSpend

def spend : NetMessageTransaction := plainSpend ⟨genesisTransaction.getHash, 0⟩ (50 * coin)

def block : Block := blockOn Revival.tipHash [Revival.filler, spend] 1296688603 0

theorem spendsGenesis : spend.SpendsGenesis := ⟨_, List.mem_singleton_self _, mem_genesisOutPoints.mpr rfl⟩

theorem evaluated : Revival.filler.getHash ≠ genesisTransaction.getHash ∧
    checkBlockContents (blockOn Uint256.null [Revival.filler, spend] 0 0) = true ∧
    stretchOk block.getHash Revival.tipHash [block] [45585] = true := by
  decide +kernel

theorem output_kept : (ledgerOf ([getGenesisBlock] ++ Revival.firstPart)).utxo.Unspent ⟨genesisTransaction.getHash, 0⟩ ∧
    (ledgerOf ([getGenesisBlock] ++ Revival.firstPart)).txIndex[genesisTransaction.getHash]? =
      some ⟨getGenesisBlock.getHash, 0, genesisTransaction⟩ := by
  refine coinbase_kept [] rfl (by simp [genesisTransaction]) ?_ genesisOutput_ne_null
  intro later hLater tx hTx
  obtain ⟨hashPrevBlock, vtx, nNonce, hRow, rfl⟩ := mem_blocksOn hLater
  change tx ∈ vtx at hTx
  rcases Revival.plain_of_mem_rows hRow with rfl | rfl
  · rw [List.mem_singleton.mp hTx, Revival.paid, spends_plainCoinbase]
    exact ⟨Revival.paid_ne.2.1.symm, List.not_mem_nil⟩
  · rw [List.mem_singleton.mp hTx, Revival.filler, spends_plainCoinbase]
    exact ⟨evaluated.1, List.not_mem_nil⟩

theorem txOk_spend (scriptFlags : UInt32) :
    TxOk anyScript (ledgerOf ([getGenesisBlock] ++ Revival.firstPart)) scriptFlags 101 spend :=
  txOk_plainSpend genesisOutput_ne_null output_kept.1 output_kept.2 rfl (fun _ => by decide) (by decide) (by decide)
    (by decide)

theorem vtxValid_block : VtxValid anyScript (ledgerOf ([getGenesisBlock] ++ Revival.firstPart)) 101 block.vtx := by
  apply vtxValid_cons_coinbase (txFormat_plainCoinbase (by simp) (by simp) (by decide)) rfl
  intro tx hTx
  rw [List.mem_singleton.mp hTx]
  exact txOk_spend _

theorem follows_block : Follows anyScript ([getGenesisBlock] ++ Revival.firstPart) block := by
  have hHeaders : headersOk params.hashGenesisBlock [params.hashGenesisBlock] (Revival.firstPart ++ [block]) = true := by
    apply headersOk_of_stretchOk (stretchOk_append Revival.firstStretch.ok evaluated.2.2)
    · decide +kernel
    · decide +kernel
  refine (headerOk_of_genesis hHeaders Revival.firstPart [] rfl).follows ?_ vtxValid_block
  rw [block, checkBlockContents_blockOn]
  exact evaluated.2.1

/-- A node after these hundred blocks takes the block, and it would take the transaction. -/
theorem accepted {node : Node} {tip : BlockIndex} (hRun : Node.TipRun anyScript BlockRule.any node)
    (hHolds : node.Holds ([getGenesisBlock] ++ Revival.firstPart))
    (hLedger : node.ledger = ledgerOf ([getGenesisBlock] ++ Revival.firstPart)) (hTip : node.tips.getActiveTip = some tip)
    (hHeight : tip.height = 100) (hHash : tip.hash = Revival.tipHash) :
    (∃ node', Node.acceptBlock anyScript node block = ⟨node', .ok true⟩) ∧
      ∃ memPool, node.acceptTx anyScript node.memPool spend = .ok (memPool, true) := by
  have hTree : node.Tree := Node.Run.tree hRun
  constructor
  · obtain ⟨prev, active, hCandidate, -⟩ := hHolds.candidate hTree follows_block
    have hTop : block.hashPrevBlock = tip.hash := hHash.symm
    have hNull : tip.hash ≠ Uint256.null := hTop ▸ follows_block.parentNotNull
    have hWaiting : node.waiting block.getHash = false := by rw [Node.waiting, hHolds.noOrphans, List.any_nil]
    have hValid : VtxValid anyScript node.ledger (tip.height + 1) block.vtx := by
      rw [hLedger, hHeight]
      exact vtxValid_block
    have hResult : (Node.acceptBlock anyScript node block).result = .ok true :=
      (hTree.accepted_onTop_iff hTip hTop).mpr ⟨hCandidate.new, hNull, hWaiting, follows_block.ok, hValid⟩
    refine ⟨(Node.acceptBlock anyScript node block).node, ?_⟩
    rw [← hResult]
  · rw [Node.Run.poolEmpty hRun]
    refine ⟨_, Node.acceptTx_of_txOk hTip (by simp [TXMemPool.empty]) ?_ ?_⟩
    · apply allInputsFound_plainSpend
      rw [hLedger]
      exact output_kept.2
    · rw [hLedger, hHeight]
      exact txOk_spend _

end GenesisSpend

namespace Intake

theorem exists_reaches {verifyScript : VerifyScript} {allowed : Node → Block → Prop} {node : Node}
    (hRun : Node.Run verifyScript allowed node) :
    ∃ state, Reaches (step verifyScript) (fun _ _ => True) start state ∧ state.node = node := by
  induction hRun with
  | refl => exact ⟨start, .refl, rfl⟩
  | tail _ hNext ih =>
    obtain ⟨state, hReaches, rfl⟩ := ih
    obtain ⟨block, -, accepted, hAccept⟩ := hNext
    exact ⟨_, hReaches.next trivial (step_acceptBlock hAccept), rfl⟩

/-- At height 101 a block and a transaction that spend the output are accepted. -/
theorem exists_genesis_spent : ∃ (verifyScript : VerifyScript) (state state' : State),
    Reaches (step verifyScript) (fun _ _ => True) start state ∧
    Reaches (step verifyScript) (fun _ _ => True) start state' ∧
    (∃ block ∈ state.blocks, ∃ tx ∈ block.vtx, tx.SpendsGenesis) ∧ ∃ tx ∈ state'.txs, tx.SpendsGenesis := by
  obtain ⟨node, tip, hRun, hHolds, hLedger, hTip, hHeight, hHash⟩ := Revival.exists_firstPart
  obtain ⟨before, hBefore, rfl⟩ := exists_reaches hRun
  obtain ⟨⟨node', hBlock⟩, memPool, hTx⟩ := GenesisSpend.accepted hRun hHolds hLedger hTip hHeight hHash
  refine ⟨anyScript, _, _, hBefore.next trivial (step_acceptBlock hBlock), hBefore.next trivial (step_acceptTx hTx), ?_, ?_⟩
  · exact ⟨_, List.mem_cons_self, GenesisSpend.spend, by simp [GenesisSpend.block, blockOn], GenesisSpend.spendsGenesis⟩
  · exact ⟨_, List.mem_cons_self, GenesisSpend.spendsGenesis⟩

end Intake

end BitcoinGpuMiner
