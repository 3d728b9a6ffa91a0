import BitcoinGpuMiner.Model.CheckTransaction

/-! # `BlockChain::CheckBlock`, the required work and the subsidy -/

namespace BitcoinGpuMiner

set_option autoImplicit false

def powTargetTimespan : Nat := 14 * 24 * 60 * 60

def powTargetSpacing : Nat := 10 * 60

def difficultyAdjustmentInterval : Nat := powTargetTimespan / powTargetSpacing

/-- `s_PowNoRetargeting` as compiled in. -/
def powNoRetargeting : Bool := true

/-- `s_PowAllowMinDifficultyBlocks` as compiled in. -/
def powAllowMinDifficultyBlocks : Bool := true

def proofOfWorkLimit : UInt32 := getCompact params.powLimit.toArith

def checkProofOfWork (hash : Uint256) (nBits : UInt32) : Bool :=
  let bnTarget := setCompact nBits
  if bnTarget.negative || bnTarget.target == 0 || bnTarget.overflow ||
    decide (bnTarget.target > params.powLimit.toArith) then false
  else hash.toArith ≤ bnTarget.target

def getBlockSubsidy (nHeight : Int) : Int :=
  let halvings := (toInt32 nHeight).tdiv params.nSubsidyHalvingInterval
  if halvings ≥ 64 then 0 else (50 * coin) >>> halvings.toNat

/-- The elapsed time is compared as an unsigned number, so one that is negative counts as huge. -/
def calculateNextWorkRequired (powNoRetargeting : Bool) (lastBlock : Block) (nFirstBlockTime : Int) : UInt32 :=
  if powNoRetargeting then lastBlock.nBits
  else
    let nActualTimespan := (((lastBlock.nTime.toNat : Int) - nFirstBlockTime) % 2 ^ 64).toNat
    let nActualTimespan := max nActualTimespan (powTargetTimespan / 4)
    let nActualTimespan := min nActualTimespan (powTargetTimespan * 4)
    let bnNew := (setCompact lastBlock.nBits).target * (nActualTimespan % 2 ^ 32) % 2 ^ 256 / powTargetTimespan
    getCompact (min bnNew params.powLimit.toArith)

/-- The walk to the last block that was not mined at the limit. A block the database does not
have leaves `tmpBlock` as it is, so the loop then runs for ever. -/
def skipLimitBlocks (blocks : HashMap Block) (limit : UInt32) : Nat → Block → Except Fault Block
  | 0, _ => .error .diverges
  | fuel + 1, tmpBlock =>
    if !tmpBlock.hashPrevBlock.isNull && tmpBlock.nBits == limit then
      skipLimitBlocks blocks limit fuel (blocks[tmpBlock.hashPrevBlock]?.getD tmpBlock)
    else .ok tmpBlock

/-- `count` steps to the parent. -/
def goBack (blocks : HashMap Block) : Nat → Block → Block
  | 0, block => block
  | count + 1, block => goBack blocks count (blocks[block.hashPrevBlock]?.getD block)

namespace Node

/-- More steps than there are stored blocks or heights below the tip repeat a block. -/
def walkFuel (node : Node) (height : Int) : Nat := node.blocks.size + height.toNat + 2

def getNextWorkRequired (node : Node) (activeTip : BlockIndex) (lastBlock block : Block) : Except Fault UInt32 :=
  if (activeTip.height + 1) % difficultyAdjustmentInterval ≠ 0 then
    if powAllowMinDifficultyBlocks then
      if block.nTime.toNat > lastBlock.nTime.toNat + powTargetSpacing * 2 then .ok proofOfWorkLimit
      else (skipLimitBlocks node.blocks proofOfWorkLimit (node.walkFuel activeTip.height) lastBlock).map (·.nBits)
    else .ok lastBlock.nBits
  else
    let firstBlock := goBack node.blocks (2016 - 1) lastBlock
    .ok (calculateNextWorkRequired powNoRetargeting lastBlock firstBlock.nTime.toNat)

end Node

/-- What the transaction loop of `CheckBlock` carries. -/
structure VtxScan where
  txids : List Uint256
  utxos : List OutPoint
  nSigOps : UInt32

/-- The insertion of the inputs into `utxos`, which fails at the first repetition. -/
def insertOutPoints : List TxIn → List OutPoint → Option (List OutPoint)
  | [], utxos => some utxos
  | txIn :: rest, utxos =>
    if txIn.previousOutput ∈ utxos then none else insertOutPoints rest (txIn.previousOutput :: utxos)

/-- One round of the transaction loop; `first` tells whether `it` is at the beginning. -/
def scanTransaction (first : Bool) (tx : NetMessageTransaction) (scan : VtxScan) : Option VtxScan :=
  if tx.getHash ∈ scan.txids then none
  else if first && !tx.isCoinBase then none
  else if !first && tx.isCoinBase then none
  else match insertOutPoints tx.vin scan.utxos with
  | none => none
  | some utxos =>
    let nSigOps := scan.nSigOps + tx.getLegacySigOpCount
    if (nSigOps * UInt32.ofNat witnessScaleFactor).toNat > maxBlockSigopsCost then none
    else some ⟨tx.getHash :: scan.txids, utxos, nSigOps⟩

def scanTransactions : Bool → List NetMessageTransaction → VtxScan → Bool
  | _, [], _ => true
  | first, tx :: rest, scan =>
    match scanTransaction first tx scan with
    | none => false
    | some scan => scanTransactions false rest scan

/-- The part of `CheckBlock` that reads nothing but the block. -/
def checkBlockContents (block : Block) : Bool :=
  if block.vtx.isEmpty || decide (block.vtx.length * witnessScaleFactor > maxBlockWeight) ||
    decide (block.getSerializeSize * witnessScaleFactor > maxBlockWeight) then false
  else if !scanTransactions true block.vtx ⟨[], [], 0⟩ then false
  else if block.makeMerkleRoot.mutated || block.hashMerkleRoot != block.makeMerkleRoot.hash then false
  else true

namespace Node

def checkBlock (node : Node) (block : Block) : Except Fault Bool :=
  if !checkBlockContents block then .ok false
  else match node.tips.getActiveTip with
  | none => .error .nullDereference
  | some activeTip =>
    let lastBlock := node.getBlock activeTip.hash
    if lastBlock.isNull then .ok false
    else match node.getNextWorkRequired activeTip lastBlock block with
    | .error fault => .error fault
    | .ok nowBits =>
      if block.nBits ≠ nowBits then .ok false else .ok (checkProofOfWork block.getHash block.nBits)

end Node

end BitcoinGpuMiner
