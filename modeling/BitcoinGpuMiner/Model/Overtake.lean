import BitcoinGpuMiner.Model.SaveBlock

/-! # The reorganisation branch of `AcceptBlock`

Two loops walk back from the new block and from the active tip, a third one checks the
collected blocks in growth order, and the ledger is then moved to the new branch.
-/

namespace BitcoinGpuMiner

set_option autoImplicit false

/-- What the walk to the fork point collects: newest block first. -/
structure ForkWalk where
  forkChain : List BlockIndex
  inValidChain : List BlockIndex
  forkBlockHeight : Int

/-- The first loop, which runs while `--chainHeightDiff` is positive. -/
def levelFork (blockIndex : HashMap BlockIndex) :
    Nat → Option BlockIndex → List BlockIndex → Option BlockIndex × List BlockIndex
  | count + 1, some it, forkChain =>
    if it.hashPrevBlock.isNull then (some it, forkChain)
    else levelFork blockIndex count blockIndex[it.hashPrevBlock]? (forkChain ++ [it])
  | _, it, forkChain => (it, forkChain)

/-- The second loop. The test `activeIt != it` compares two pointers that are never equal, so it
is left out; what is pushed onto `inValidChain` is the active tip itself each time. -/
def walkToFork (blockIndex : HashMap BlockIndex) (activeTip : BlockIndex) :
    Nat → Option BlockIndex → Option BlockIndex → ForkWalk → Except Fault ForkWalk
  | 0, _, _, _ => .error .diverges
  | _, none, _, walk => .ok walk
  | _, some _, none, _ => .error .nullDereference
  | fuel + 1, some it, some activeIt, walk =>
    if activeIt.hashPrevBlock.isNull || it.hashPrevBlock.isNull then .ok walk
    else match blockIndex[it.hashPrevBlock]? with
    | none => .error .nullDereference
    | some parent =>
      walkToFork blockIndex activeTip fuel (some parent) blockIndex[activeIt.hashPrevBlock]?
        { forkChain := walk.forkChain ++ [it]
          inValidChain := walk.inValidChain ++ [activeTip]
          forkBlockHeight := parent.height }

/-- What the check loop carries from block to block. -/
structure ForkCheck where
  node : Node
  newBlockIndex : Option BlockIndex
  tmpMemTxIndexMap : HashMap TxIdx
  tmpMemUTXOSet : UtxoSet

/-- A checked transaction enters the overlay: its index entry goes under the hash of its block. -/
def ForkCheck.record (index : BlockIndex) (check : ForkCheck) (tx : NetMessageTransaction) : ForkCheck :=
  { check with
    tmpMemTxIndexMap := check.tmpMemTxIndexMap.insert index.hash ⟨index.hash, index.height, tx⟩
    tmpMemUTXOSet := tx.outPoints.foldl (fun set pt => set.insertIfNew pt ⟨index.hash, index.height, false⟩)
      (tx.vin.foldl (fun set txIn => set.erase txIn.previousOutput) check.tmpMemUTXOSet) }

namespace Node

section Overtake

variable (verifyScript : VerifyScript) (block : Block) (prevBlockIndex : BlockIndex)
variable (scriptFlags : UInt32) (forkBlockHeight : Int)

/-- The block of a fork entry; reaching the new block saves it first. -/
def forkBlock (check : ForkCheck) (index : BlockIndex) : Option (ForkCheck × Block) :=
  if index.hash = block.getHash then
    match check.node.saveBlock block prevBlockIndex false with
    | none => none
    | some (node, newBlockIndex) =>
      some ({ check with node := node, newBlockIndex := some newBlockIndex }, block)
  else some (check, check.node.getBlock index.hash)

/-- One round of the check loop; the error is the outcome of the whole call. -/
def checkForkBlock (check : ForkCheck) (index : BlockIndex) : Except Outcome ForkCheck :=
  match check.node.checkBlock block with
  | .error fault => .error ⟨check.node, .error fault⟩
  | .ok false => .error ⟨check.node, .ok false⟩
  | .ok true =>
    match forkBlock block prevBlockIndex check index with
    | none => .error ⟨check.node, .ok false⟩
    | some (check, tmpBlock) =>
      match check.newBlockIndex with
      -- `newBlockIndex->_height` before the loop has come to the new block
      | none => .error ⟨check.node, .error .nullDereference⟩
      | some newBlockIndex =>
        match checkTransactions verifyScript check.node.ledger scriptFlags newBlockIndex.height
          (some ⟨check.tmpMemTxIndexMap, check.tmpMemUTXOSet, forkBlockHeight⟩) tmpBlock.vtx with
        | .error fault => .error ⟨check.node, .error fault⟩
        | .ok none => .error ⟨check.node, .ok false⟩
        | .ok (some _) => .ok (tmpBlock.vtx.foldl (ForkCheck.record index) check)

def checkFork (node : Node) (forkChain : List BlockIndex) : Except Outcome ForkCheck :=
  forkChain.reverse.foldlM (checkForkBlock verifyScript block prevBlockIndex scriptFlags forkBlockHeight)
    ⟨node, none, ∅, ∅⟩

end Overtake

def clearInvalid (node : Node) (index : BlockIndex) : Node :=
  { node with ledger := (node.getBlock index.hash).vtx.foldl Ledger.clearTransaction node.ledger }

def processFork (node : Node) (index : BlockIndex) : Node :=
  node.processTransactions (node.getBlock index.hash).vtx index.hash index.height

/-- The branch for a block on a tip that would become the highest. -/
def acceptOvertaking (verifyScript : VerifyScript) (node : Node) (block : Block) (tip activeTip : BlockIndex)
    (prevBlockIndex : Option BlockIndex) : Outcome :=
  let hash := block.getHash
  let scriptFlags := ScriptValidation.getBlockScriptFlags
    (BlockIndex.make (currentHeight hash prevBlockIndex) hash block.hashPrevBlock)
  let chainHeightDiff := tip.height + 1 - activeTip.height
  let (it, forkChain) := levelFork node.blockIndex (chainHeightDiff - 1).toNat
    (some (BlockIndex.make (tip.height + 1) hash block.hashPrevBlock)) []
  let fuel := node.blockIndex.size + activeTip.height.toNat + 2
  match walkToFork node.blockIndex activeTip fuel it (some activeTip) ⟨forkChain, [], -1⟩ with
  | .error fault => ⟨node, .error fault⟩
  | .ok walk =>
    match checkFork verifyScript block (prevBlockIndex.getD BlockIndex.empty) scriptFlags walk.forkBlockHeight
      node walk.forkChain with
    | .error outcome => outcome
    | .ok check =>
      let node := walk.inValidChain.reverse.foldl clearInvalid check.node
      let node := walk.forkChain.reverse.foldl processFork node
      match check.newBlockIndex with
      | none => ⟨node, .error .nullDereference⟩
      | some newBlockIndex =>
        acceptBlockOK verifyScript { node with tips := node.tips.updateTip newBlockIndex } hash

end Node

end BitcoinGpuMiner
