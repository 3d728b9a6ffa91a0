import BitcoinGpuMiner.Ledger.DoubleSpend

/-! # Soundness of tip extension

What the databases say about an input, said in terms of the chain alone: which transaction made the
output, in which block, and that nobody has spent it since.
-/

namespace BitcoinGpuMiner

open Foundation

set_option autoImplicit false

/-- The output a key names on a chain: that of the last transaction with the hash. -/
def outputIn (txs : List TxIdx) (pt : OutPoint) : Option TxOut :=
  (Ledger.lastTx txs pt.hashTransaction).bind fun idx => idx.tx.vout[pt.outPutIdx.toNat]?

def valueIn (txs : List TxIdx) (pt : OutPoint) : Int := (outputIn txs pt).elim 0 TxOut.nValue

/-- An input on top of the chain `before`. -/
structure InputSound (verifyScript : VerifyScript) (before : List Block) (tx : NetMessageTransaction) (txInI : Nat)
    (txIn : TxIn) (idx : TxIdx) (out : TxOut) : Prop where
  last : Ledger.lastTx (txsOfChain before) txIn.previousOutput.hashTransaction = some idx
  earlier : ∃ (height : Nat) (block : Block), before[height]? = some block ∧ idx.tx ∈ block.vtx ∧
    idx.height = height ∧ idx.hashBlock = block.getHash
  output : idx.tx.vout[txIn.previousOutput.outPutIdx.toNat]? = some out
  unspent : UnspentIn (txsOfChain before) txIn.previousOutput
  mature : idx.tx.isCoinBase = true → idx.height + 100 ≤ before.length
  script : verifyScript txIn.scriptSig out.scriptPubKey txIn.scriptWitness (scriptFlagsAt before.length) tx txInI
    out.nValue = true

/-- A block on top of the chain `before`. -/
structure BlockSound (verifyScript : VerifyScript) (before : List Block) (block : Block) : Prop where
  coinbase : ∃ coinbase rest, block.vtx = coinbase :: rest ∧ coinbase.isCoinBase = true ∧
    ∀ tx ∈ rest, tx.isCoinBase = false
  distinct : (block.vtx.flatMap NetMessageTransaction.spends).Nodup
  inputs : ∀ tx ∈ block.vtx, tx.isCoinBase = false → ∀ i txIn, tx.vin[i]? = some txIn →
    ∃ idx out, InputSound verifyScript before tx i txIn idx out
  amounts : ∀ tx ∈ block.vtx, tx.isCoinBase = false →
    tx.sumOut ≤ (tx.vin.map fun txIn => valueIn (txsOfChain before) txIn.previousOutput).sum

theorem output_ledgerOf (chain : List Block) (pt : OutPoint) : (ledgerOf chain).output pt = outputIn (txsOfChain chain) pt := by
  rw [Ledger.output, ledgerOf, Ledger.replay_txIndex, outputIn]

section Blocks

variable {verifyScript : VerifyScript} {chain : List Block} {block : Block}

theorem InputOk.sound {tx : NetMessageTransaction} {i : Nat} {txIn : TxIn}
    (hInput : InputOk verifyScript (ledgerOf chain) (scriptFlagsAt chain.length) chain.length tx i txIn) :
    ∃ idx out, InputSound verifyScript chain tx i txIn idx out := by
  obtain ⟨idx, out, hIdx, hOut, hMature, -, hScript⟩ := hInput.output
  rw [ledgerOf, Ledger.replay_txIndex] at hIdx
  have hUnspent := hInput.unspent
  rw [ledgerOf, Ledger.unspent_replay_iff _ hInput.notNull] at hUnspent
  have hMem : idx ∈ txsOfChain chain := List.mem_reverse.mp (List.mem_of_find?_eq_some hIdx)
  refine ⟨idx, out, hIdx, exists_block_of_mem hMem, hOut, hUnspent, fun hCoinBase => ?_, hScript⟩
  have hDepth := hMature hCoinBase
  rw [coinbaseMaturity] at hDepth
  omega

theorem Follows.sound (hFollows : Follows verifyScript chain block) : BlockSound verifyScript chain block where
  coinbase := by
    have hContents := hFollows.contents
    cases hVtx : block.vtx with
    | nil => exact absurd hVtx hContents.nonempty
    | cons coinbase rest =>
      have hFirst := hContents.vtx.coinbase
      rw [hVtx] at hFirst
      exact ⟨coinbase, rest, rfl, hFirst.1, hFirst.2⟩
  distinct := hFollows.contents.vtx.prevOutsNodup.sublist (flatMap_spends_sublist block.vtx)
  inputs := by
    intro tx hTx hCoinBase i txIn hGet
    exact (((hFollows.valid tx hTx).spend hCoinBase).inputs i txIn hGet).sound
  amounts := by
    intro tx hTx hCoinBase
    have hCovered := ((hFollows.valid tx hTx).spend hCoinBase).covered
    simp only [Ledger.sumIn, Ledger.value, output_ledgerOf] at hCovered
    exact hCovered

theorem genesis_sound : BlockSound verifyScript [] getGenesisBlock where
  coinbase := ⟨genesisTransaction, [], rfl, rfl, by simp⟩
  distinct := List.nodup_nil
  inputs := by
    intro tx hTx hCoinBase
    cases List.mem_singleton.mp hTx
    cases hCoinBase
  amounts := by
    intro tx hTx hCoinBase
    cases List.mem_singleton.mp hTx
    cases hCoinBase

end Blocks

namespace Node

/-- Every accepted block is on the chain of the run and sound with respect to the blocks below it. -/
theorem blockSound_of_tipRun {verifyScript : VerifyScript} {node : Node}
    (hRun : TipRun verifyScript BlockRule.any node) :
    (∀ h index, node.entry h = some index → h ∈ node.activeBlocks.map Block.getHash) ∧
      ∀ before block after, node.activeBlocks = before ++ block :: after → BlockSound verifyScript before block := by
  refine ⟨hRun.indexed, fun before block after hSplit => ?_⟩
  rcases hRun.refines.valid.follows_of_split hSplit with ⟨rfl, rfl⟩ | ⟨hFollows, -⟩
  · exact genesis_sound
  · exact hFollows.sound

theorem blockSound_firstSpend : ∃ node : Node,
    node.activeBlocks = [getGenesisBlock] ++ Revival.firstPart ++ [Revival.firstSpend] ∧
      BlockSound anyScript ([getGenesisBlock] ++ Revival.firstPart) Revival.firstSpend := by
  obtain ⟨node, hRun, hHolds⟩ := exists_tipRun Revival.valid_firstSpend
  exact ⟨node, hHolds.blocks, (blockSound_of_tipRun hRun).2 _ _ [] hHolds.blocks⟩

end Node

end BitcoinGpuMiner
