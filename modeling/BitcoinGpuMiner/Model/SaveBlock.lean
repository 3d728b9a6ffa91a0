import BitcoinGpuMiner.Model.MemPool

/-! # Saving a block, and what `AcceptBlock` does once a block is in -/

namespace BitcoinGpuMiner

set_option autoImplicit false

/-- The node a call leaves behind and how the call ends. -/
structure Outcome where
  node : Node
  result : Except Fault Bool

namespace Node

/-- `SaveBlock`: nothing where the source returns a null pointer. -/
def saveBlock (node : Node) (block : Block) (prevBlockIndex : BlockIndex) (updateOrCreateTip : Bool) :
    Option (Node × BlockIndex) :=
  let hash := block.getHash
  if prevBlockIndex.isNull && hash != params.hashGenesisBlock then none
  else
    let height := if prevBlockIndex.isNull then 0 else prevBlockIndex.height + 1
    let linked :=
      if prevBlockIndex.isNull then node.blockIndex
      else node.blockIndex.insert prevBlockIndex.hash { prevBlockIndex with hashNextBlock := hash }
    let index := BlockIndex.make height hash block.hashPrevBlock
    some ({ node with
      blocks := node.blocks.insert hash block
      blockIndex := linked.insert hash index
      tips := if updateOrCreateTip then node.tips.updateTip index else node.tips }, index)

/-- `ProcessTransactions`: the pool forgets the transactions and the ledger records them. -/
def processTransactions (node : Node) (vtx : List NetMessageTransaction) (hashBlock : Uint256) (height : Int) :
    Node :=
  { node with
    memPool := vtx.foldl (fun memPool tx => memPool.remove tx.getHash) node.memPool
    ledger := node.ledger.processTransactions vtx hashBlock height }

/-- `BlockChain::Initialize`. -/
def initialised (node : Node) : Node :=
  match node.tips.getActiveTip with
  | some _ => node
  | none =>
    match node.saveBlock getGenesisBlock BlockIndex.empty true with
    | none => node
    | some (node, index) => node.processTransactions getGenesisBlock.vtx index.hash index.height

/-- The state after `Initialize` on empty databases. -/
def initial : Node := empty.initialised

/-- `FuncGetCurrentHeight`. -/
def currentHeight (hash : Uint256) (prevBlockIndex : Option BlockIndex) : Int :=
  if hash = params.hashGenesisBlock then 0
  else match prevBlockIndex with
  | none => BlockIndex.invalidBlockHeight
  | some prevBlockIndex => prevBlockIndex.height + 1

section Branches

variable (verifyScript : VerifyScript)

/-- The end of the function for a block that is not an orphan. An orphan that waits for it is
passed to `AcceptBlock` again while the function's own mutex is held. -/
def connectOrphan (node : Node) (hash : Uint256) : Outcome :=
  if node.orphanBlocks.any fun entry => entry.1 == hash then ⟨node, .error .deadlock⟩ else ⟨node, .ok true⟩

/-- `FuncAcceptBlockOK`, then the end of the function. -/
def acceptBlockOK (node : Node) (hash : Uint256) : Outcome :=
  match node.procOrphanTx verifyScript with
  | .error fault => ⟨node, .error fault⟩
  | .ok memPool => connectOrphan { node with memPool := memPool } hash

end Branches

end Node

end BitcoinGpuMiner
