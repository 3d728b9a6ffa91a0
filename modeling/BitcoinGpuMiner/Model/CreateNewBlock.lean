import BitcoinGpuMiner.Model.AcceptBlock

/-! # `Block::CreateNewBlock` -/

namespace BitcoinGpuMiner

set_option autoImplicit false

/-- The 38 bytes of the witness commitment output. -/
def commitmentScript (witnessRoot : Uint256) : CScript :=
  [0x6a, 0x24, 0xaa, 0x21, 0xa9, 0xed] ++
    (Sha256.doubleHash256 (witnessRoot.bytes ++ List.replicate 32 0)).bytes

/-- The coinbase transaction of a template, of version `CURRENT_VERSION`. -/
def coinbaseTransaction (height : Int) (scriptPubKeyIn : CScript) (nValue : Int) (witnessRoot : Uint256) :
    NetMessageTransaction where
  vin := [{
    previousOutput := OutPoint.null
    scriptSig := CScript.pushInt64 [] height ++ [0x00]
    sequence := 0xffffffff
    scriptWitness := if height ≥ params.segwitHeight then [List.replicate 32 0x00] else [] }]
  vout := [⟨nValue, scriptPubKeyIn⟩, ⟨0, commitmentScript witnessRoot⟩]
  nVersion := 2
  nLockTime := 0

/-- The transaction that stands in for the coinbase while the witness root is computed. -/
def placeholderTransaction : NetMessageTransaction := ⟨[], [], 2, 0⟩

/-- The block built on `tip`, apart from its difficulty. -/
def templateBlock (tip : BlockIndex) (scriptPubKeyIn : CScript) (time : UInt32) (selection : Selection) : Block :=
  let height := tip.height + 1
  let unsigned : Block := ⟨⟨0x20000000, tip.hash, Uint256.null, 0, 0, 0⟩, placeholderTransaction :: selection.vtx⟩
  let cbtx := coinbaseTransaction height scriptPubKeyIn (toInt64 (selection.nFees + getBlockSubsidy height))
    unsigned.makeWitnessMerkleRoot.hash
  let vtx := cbtx :: selection.vtx
  { nVersion := 0x20000000
    hashPrevBlock := tip.hash
    hashMerkleRoot := (computeMerkleRoot (vtx.map NetMessageTransaction.getHash)).hash
    nTime := time
    nBits := 0
    nNonce := 0
    vtx := vtx }

/-- `Block::CreateNewBlock` at a given clock reading: the pool after the selection, and the block. -/
def Node.createNewBlock (node : Node) (scriptPubKeyIn : CScript) (time : UInt32) :
    Except Fault (TXMemPool × Block) :=
  match node.tips.getActiveTip with
  | none => .error .nullDereference
  | some tip =>
    let lastBlock := node.getBlock tip.hash
    let selection := getNewBlockTxs node.ledger node.memPool
    let block := templateBlock tip scriptPubKeyIn time selection
    match node.getNextWorkRequired tip lastBlock block with
    | .error fault => .error fault
    | .ok nBits => .ok (selection.memPool, { block with nBits := nBits })

end BitcoinGpuMiner
