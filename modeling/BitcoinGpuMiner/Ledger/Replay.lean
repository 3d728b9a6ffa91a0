import BitcoinGpuMiner.Foundation.OrderedMap
import BitcoinGpuMiner.Model.Store

/-! # Replaying a list of transactions

What the ledger should be, said without the node: the transactions of a chain, each with its
block, applied one after another to the empty ledger.
-/

namespace BitcoinGpuMiner.Ledger

open Foundation

set_option autoImplicit false

def record (ledger : Ledger) (idx : TxIdx) : Ledger := processTransaction idx.hashBlock idx.height ledger idx.tx

def replay (txs : List TxIdx) : Ledger := txs.foldl record empty

/-- `CacheUTXO` over the transactions of a chain, in order. -/
def replayUTXO (txs : List TxIdx) : UtxoSet :=
  txs.foldl (fun utxo idx => utxo.cacheUTXO idx.tx idx.hashBlock idx.height) ∅

def lastTx (txs : List TxIdx) (hash : Uint256) : Option TxIdx :=
  txs.reverse.find? fun idx => decide (idx.tx.getHash = hash)

theorem replay_append (txs more : List TxIdx) : replay (txs ++ more) = more.foldl record (replay txs) :=
  List.foldl_append

theorem foldl_record_utxo (txs : List TxIdx) (ledger : Ledger) : (txs.foldl record ledger).utxo =
    txs.foldl (fun utxo idx => utxo.cacheUTXO idx.tx idx.hashBlock idx.height) ledger.utxo := by
  induction txs generalizing ledger with
  | nil => rfl
  | cons idx txs ih => exact ih (ledger.record idx)

theorem foldl_record_txIndex (txs : List TxIdx) (ledger : Ledger) : (txs.foldl record ledger).txIndex =
    txs.foldl (fun index idx => index.insert idx.tx.getHash idx) ledger.txIndex := by
  induction txs generalizing ledger with
  | nil => rfl
  | cons idx txs ih => exact ih (ledger.record idx)

theorem replay_utxo (txs : List TxIdx) : (replay txs).utxo = replayUTXO txs := foldl_record_utxo txs empty

/-- The index of a replayed chain holds the last transaction for each hash, and nothing else. -/
theorem replay_txIndex (txs : List TxIdx) (hash : Uint256) : (replay txs).txIndex[hash]? = lastTx txs hash := by
  rw [replay, foldl_record_txIndex]
  refine (lookup_foldl_insert (fun idx : TxIdx => idx.tx.getHash) (fun idx => idx) txs _ hash).trans ?_
  simp [empty, lastTx]

theorem processTransactions_eq (ledger : Ledger) (vtx : List NetMessageTransaction) (hashBlock : Uint256)
    (height : Int) :
    ledger.processTransactions vtx hashBlock height =
      (vtx.map fun tx => ⟨hashBlock, height, tx⟩).foldl record ledger := by
  rw [List.foldl_map]
  rfl

end BitcoinGpuMiner.Ledger

namespace BitcoinGpuMiner

def blockTxs (height : Nat) (block : Block) : List TxIdx := block.vtx.map fun tx => ⟨block.getHash, height, tx⟩

/-- The transactions of a chain of blocks, the first of which has height zero. -/
def txsOfChain (chain : List Block) : List TxIdx := chain.zipIdx.flatMap fun entry => blockTxs entry.2 entry.1

def ledgerOf (chain : List Block) : Ledger := Ledger.replay (txsOfChain chain)

theorem txsOfChain_append_singleton (chain : List Block) (block : Block) :
    txsOfChain (chain ++ [block]) = txsOfChain chain ++ blockTxs chain.length block := by
  simp [txsOfChain, List.zipIdx_append]

theorem exists_txsOfChain_append (chain more : List Block) : ∃ txs, txsOfChain (chain ++ more) = txsOfChain chain ++ txs ∧
    ∀ idx ∈ txs, ∃ block ∈ more, idx.tx ∈ block.vtx := by
  refine ⟨(more.zipIdx chain.length).flatMap fun entry => blockTxs entry.2 entry.1, ?_, ?_⟩
  · simp [txsOfChain, List.zipIdx_append]
  · intro idx hIdx
    obtain ⟨entry, hEntry, hMem⟩ := List.mem_flatMap.mp hIdx
    obtain ⟨tx, hTx, rfl⟩ := List.mem_map.mp hMem
    exact ⟨entry.1, List.fst_mem_of_mem_zipIdx hEntry, hTx⟩

theorem exists_block_of_mem {chain : List Block} {idx : TxIdx} (hIdx : idx ∈ txsOfChain chain) :
    ∃ (height : Nat) (block : Block), chain[height]? = some block ∧ idx.tx ∈ block.vtx ∧
      idx.height = height ∧ idx.hashBlock = block.getHash := by
  obtain ⟨⟨block, height⟩, hEntry, hMem⟩ := List.mem_flatMap.mp hIdx
  obtain ⟨tx, hTx, rfl⟩ := List.mem_map.mp hMem
  exact ⟨height, block, List.mem_zipIdx_iff_getElem?.mp hEntry, hTx, rfl, rfl⟩

theorem ledgerOf_append_singleton (chain : List Block) (block : Block) : ledgerOf (chain ++ [block]) =
    (ledgerOf chain).processTransactions block.vtx block.getHash chain.length := by
  rw [ledgerOf, txsOfChain_append_singleton, Ledger.replay_append, Ledger.processTransactions_eq]
  rfl

end BitcoinGpuMiner
