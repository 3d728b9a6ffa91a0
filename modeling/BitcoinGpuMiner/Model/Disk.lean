import BitcoinGpuMiner.Model.AcceptBlock
import BitcoinGpuMiner.Wire.Unserialize

/-! # The block database as bytes

`PutBlock` stores what the serializer writes and `GetBlock` decodes it, which can throw; nothing above `AcceptBlock`
catches the exception. Here are the functions that read blocks, over the bytes. The state is the same: `Node.blocks`
says which block each value was written from, and `Node.database` is what the database holds.
-/

namespace BitcoinGpuMiner

open Foundation

set_option autoImplicit false

/-- What `DBBlockWrapper::PutBlock` stores under the hash. -/
def Block.putBlock (block : Block) : Bytes := block.serialize

/-- `DBBlockWrapper::GetBlock` from a stored value. -/
def getBlock (stale : Nat → UInt8) (value : Bytes) : Except ReadFault Block :=
  (Block.unserialize stale true false ⟨value, 0, false⟩).map Prod.fst

def Node.database (node : Node) : HashMap Bytes := node.blocks.map fun _ block => block.putBlock

/-- How a call ends that does not return. -/
inductive Stop where
  | fault (fault : Fault)
  | thrown (exception : ReadFault)
deriving DecidableEq

namespace Disk

structure Outcome where
  node : Node
  result : Except Stop Bool

/-- The outcome of a part that reads no block. -/
def Outcome.of (outcome : BitcoinGpuMiner.Outcome) : Outcome := ⟨outcome.node, outcome.result.mapError .fault⟩

section Walks

variable (stale : Nat → UInt8) (database : HashMap Bytes)

/-- `GetBlock` into an object, which stays as it is when nothing is stored under the hash. -/
def readBlock (hash : Uint256) (block : Block) : Except ReadFault Block :=
  match database[hash]? with
  | none => .ok block
  | some value => getBlock stale value

def skipLimitBlocks (limit : UInt32) : Nat → Block → Except Stop Block
  | 0, _ => .error (.fault .diverges)
  | fuel + 1, tmpBlock =>
    if !tmpBlock.hashPrevBlock.isNull && tmpBlock.nBits == limit then
      match readBlock stale database tmpBlock.hashPrevBlock tmpBlock with
      | .error exception => .error (.thrown exception)
      | .ok tmpBlock => skipLimitBlocks limit fuel tmpBlock
    else .ok tmpBlock

def goBack : Nat → Block → Except ReadFault Block
  | 0, block => .ok block
  | count + 1, block =>
    match readBlock stale database block.hashPrevBlock block with
    | .error exception => .error exception
    | .ok block => goBack count block

end Walks

variable (stale : Nat → UInt8)

def getNextWorkRequired (node : Node) (activeTip : BlockIndex) (lastBlock block : Block) : Except Stop UInt32 :=
  if (activeTip.height + 1) % difficultyAdjustmentInterval ≠ 0 then
    if powAllowMinDifficultyBlocks then
      if block.nTime.toNat > lastBlock.nTime.toNat + powTargetSpacing * 2 then .ok proofOfWorkLimit
      else (skipLimitBlocks stale node.database proofOfWorkLimit (node.walkFuel activeTip.height) lastBlock).map (·.nBits)
    else .ok lastBlock.nBits
  else
    match goBack stale node.database (2016 - 1) lastBlock with
    | .error exception => .error (.thrown exception)
    | .ok firstBlock => .ok (calculateNextWorkRequired powNoRetargeting lastBlock firstBlock.nTime.toNat)

/-- A tip's object may hold its block already; that is the one under its hash. -/
def checkBlock (node : Node) (block : Block) : Except Stop Bool :=
  if !checkBlockContents block then .ok false
  else match node.tips.getActiveTip with
  | none => .error (.fault .nullDereference)
  | some activeTip =>
    match readBlock stale node.database activeTip.hash Block.null with
    | .error exception => .error (.thrown exception)
    | .ok lastBlock =>
      if lastBlock.isNull then .ok false
      else match getNextWorkRequired stale node activeTip lastBlock block with
      | .error stop => .error stop
      | .ok nowBits =>
        if block.nBits ≠ nowBits then .ok false else .ok (checkProofOfWork block.getHash block.nBits)

section Overtake

variable (verifyScript : VerifyScript) (block : Block) (prevBlockIndex : BlockIndex)
variable (scriptFlags : UInt32) (forkBlockHeight : Int)

def forkBlock (check : ForkCheck) (index : BlockIndex) : Except ReadFault (Option (ForkCheck × Block)) :=
  if index.hash = block.getHash then
    match check.node.saveBlock block prevBlockIndex false with
    | none => .ok none
    | some (node, newBlockIndex) =>
      .ok (some ({ check with node := node, newBlockIndex := some newBlockIndex }, block))
  else (readBlock stale check.node.database index.hash Block.null).map fun tmpBlock => some (check, tmpBlock)

def checkForkBlock (check : ForkCheck) (index : BlockIndex) : Except Outcome ForkCheck :=
  match checkBlock stale check.node block with
  | .error stop => .error ⟨check.node, .error stop⟩
  | .ok false => .error ⟨check.node, .ok false⟩
  | .ok true =>
    match forkBlock stale block prevBlockIndex check index with
    | .error exception => .error ⟨check.node, .error (.thrown exception)⟩
    | .ok none => .error ⟨check.node, .ok false⟩
    | .ok (some (check, tmpBlock)) =>
      match check.newBlockIndex with
      | none => .error ⟨check.node, .error (.fault .nullDereference)⟩
      | some newBlockIndex =>
        match checkTransactions verifyScript check.node.ledger scriptFlags newBlockIndex.height
          (some ⟨check.tmpMemTxIndexMap, check.tmpMemUTXOSet, forkBlockHeight⟩) tmpBlock.vtx with
        | .error fault => .error ⟨check.node, .error (.fault fault)⟩
        | .ok none => .error ⟨check.node, .ok false⟩
        | .ok (some _) => .ok (tmpBlock.vtx.foldl (ForkCheck.record index) check)

def checkFork (node : Node) (forkChain : List BlockIndex) : Except Outcome ForkCheck :=
  forkChain.reverse.foldlM (checkForkBlock stale verifyScript block prevBlockIndex scriptFlags forkBlockHeight)
    ⟨node, none, ∅, ∅⟩

end Overtake

/-- A round of one of the last two loops, with what it does to the block of an entry. -/
def withBlockOf (change : Node → BlockIndex → Block → Node) (node : Node) (index : BlockIndex) : Except Outcome Node :=
  match readBlock stale node.database index.hash Block.null with
  | .error exception => .error ⟨node, .error (.thrown exception)⟩
  | .ok block => .ok (change node index block)

def clearInvalid : Node → BlockIndex → Except Outcome Node :=
  withBlockOf stale fun node _ block => { node with ledger := block.vtx.foldl Ledger.clearTransaction node.ledger }

def processFork : Node → BlockIndex → Except Outcome Node :=
  withBlockOf stale fun node index block => node.processTransactions block.vtx index.hash index.height

def acceptOvertaking (verifyScript : VerifyScript) (node : Node) (block : Block) (tip activeTip : BlockIndex)
    (prevBlockIndex : Option BlockIndex) : Outcome :=
  let hash := block.getHash
  let scriptFlags := ScriptValidation.getBlockScriptFlags
    (BlockIndex.make (Node.currentHeight hash prevBlockIndex) hash block.hashPrevBlock)
  let chainHeightDiff := tip.height + 1 - activeTip.height
  let (it, forkChain) := levelFork node.blockIndex (chainHeightDiff - 1).toNat
    (some (BlockIndex.make (tip.height + 1) hash block.hashPrevBlock)) []
  let fuel := node.blockIndex.size + activeTip.height.toNat + 2
  match walkToFork node.blockIndex activeTip fuel it (some activeTip) ⟨forkChain, [], -1⟩ with
  | .error fault => ⟨node, .error (.fault fault)⟩
  | .ok walk =>
    match checkFork stale verifyScript block (prevBlockIndex.getD BlockIndex.empty) scriptFlags walk.forkBlockHeight
      node walk.forkChain with
    | .error outcome => outcome
    | .ok check =>
      match walk.inValidChain.reverse.foldlM (clearInvalid stale) check.node with
      | .error outcome => outcome
      | .ok node =>
        match walk.forkChain.reverse.foldlM (processFork stale) node with
        | .error outcome => outcome
        | .ok node =>
          match check.newBlockIndex with
          | none => ⟨node, .error (.fault .nullDereference)⟩
          | some newBlockIndex =>
            .of (Node.acceptBlockOK verifyScript { node with tips := node.tips.updateTip newBlockIndex } hash)

section Branches

variable (verifyScript : VerifyScript)

def acceptLongest (node : Node) (block : Block) (prevBlockIndex : Option BlockIndex) : Outcome :=
  match checkBlock stale node block with
  | .error stop => ⟨node, .error stop⟩
  | .ok false => ⟨node, .ok false⟩
  | .ok true =>
    let hash := block.getHash
    let height := Node.currentHeight hash prevBlockIndex
    let scriptFlags := ScriptValidation.getBlockScriptFlags (BlockIndex.make height hash block.hashPrevBlock)
    match checkTransactions verifyScript node.ledger scriptFlags height none block.vtx with
    | .error fault => ⟨node, .error (.fault fault)⟩
    | .ok none => ⟨node, .ok false⟩
    | .ok (some _) =>
      match node.saveBlock block (prevBlockIndex.getD BlockIndex.empty) true with
      | none => ⟨node, .ok false⟩
      | some (node, index) =>
        .of (Node.acceptBlockOK verifyScript (node.processTransactions block.vtx hash index.height) hash)

def acceptSide (node : Node) (block : Block) (prevBlockIndex : Option BlockIndex) : Outcome :=
  match checkBlock stale node block with
  | .error stop => ⟨node, .error stop⟩
  | .ok false => ⟨node, .ok false⟩
  | .ok true =>
    match node.saveBlock block (prevBlockIndex.getD BlockIndex.empty) true with
    | none => ⟨node, .ok false⟩
    | some (node, _) => ⟨node, .ok true⟩

/-- `BlockChain::AcceptBlock` over the bytes. -/
def acceptBlock (node : Node) (block : Block) : Outcome :=
  let hash := block.getHash
  let prevBlockIndex := node.blockIndex[block.hashPrevBlock]?
  if node.blockIndex.contains hash then ⟨node, .ok false⟩
  else match node.tips.getTip block.hashPrevBlock with
  | some tip =>
    match node.tips.getActiveTip with
    | none => ⟨node, .error (.fault .nullDereference)⟩
    | some activeTip =>
      if tip = activeTip then acceptLongest stale verifyScript node block prevBlockIndex
      else if tip.height + 1 > activeTip.height then
        acceptOvertaking stale verifyScript node block tip activeTip prevBlockIndex
      else acceptSide stale node block prevBlockIndex
  | none =>
    if prevBlockIndex.isSome then acceptSide stale node block prevBlockIndex else .of (Node.acceptOrphan node block)

end Branches

end Disk

end BitcoinGpuMiner
