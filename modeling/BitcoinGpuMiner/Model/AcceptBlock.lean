import BitcoinGpuMiner.Model.Overtake

/-! # `BlockChain::AcceptBlock`

The function is cut at its four branches. Every caller passes `isLocalMining = false`, so
the part that restarts the miner is not reached from here.
-/

namespace BitcoinGpuMiner

set_option autoImplicit false

namespace Node

section Branches

variable (verifyScript : VerifyScript)

/-- The block extends the active tip. -/
def acceptLongest (node : Node) (block : Block) (prevBlockIndex : Option BlockIndex) : Outcome :=
  match node.checkBlock block with
  | .error fault => ⟨node, .error fault⟩
  | .ok false => ⟨node, .ok false⟩
  | .ok true =>
    let hash := block.getHash
    let height := currentHeight hash prevBlockIndex
    let scriptFlags := ScriptValidation.getBlockScriptFlags (BlockIndex.make height hash block.hashPrevBlock)
    match checkTransactions verifyScript node.ledger scriptFlags height none block.vtx with
    | .error fault => ⟨node, .error fault⟩
    | .ok none => ⟨node, .ok false⟩
    | .ok (some _) =>
      match node.saveBlock block (prevBlockIndex.getD BlockIndex.empty) true with
      | none => ⟨node, .ok false⟩
      | some (node, index) =>
        acceptBlockOK verifyScript (node.processTransactions block.vtx hash index.height) hash

/-- The block joins a branch that does not become the longest one. -/
def acceptSide (node : Node) (block : Block) (prevBlockIndex : Option BlockIndex) : Outcome :=
  match node.checkBlock block with
  | .error fault => ⟨node, .error fault⟩
  | .ok false => ⟨node, .ok false⟩
  | .ok true =>
    match node.saveBlock block (prevBlockIndex.getD BlockIndex.empty) true with
    | none => ⟨node, .ok false⟩
    | some (node, _) => ⟨node, .ok true⟩

/-- `std::multimap::insert`: behind the entries with the same or a smaller key. -/
def insertOrphan (orphanBlocks : List (Uint256 × Block)) (block : Block) : List (Uint256 × Block) :=
  let upTo (entry : Uint256 × Block) : Bool := decide (¬ block.hashPrevBlock < entry.1)
  orphanBlocks.takeWhile upTo ++ (block.hashPrevBlock, block) :: orphanBlocks.dropWhile upTo

/-- The parent is unknown. The search for a duplicate starts at the block's own hash, though
the entries are keyed by the parent's. -/
def acceptOrphan (node : Node) (block : Block) : Outcome :=
  let hash := block.getHash
  let tail := node.orphanBlocks.dropWhile fun entry => entry.1 != hash
  if tail.any fun entry => entry.2.getHash == hash then ⟨node, .ok false⟩
  else ⟨{ node with orphanBlocks := insertOrphan node.orphanBlocks block }, .ok true⟩

/-- The choice between the branches. Pointers to tips are equal when the entries are. -/
def acceptBlock (node : Node) (block : Block) : Outcome :=
  let hash := block.getHash
  let prevBlockIndex := node.blockIndex[block.hashPrevBlock]?
  if node.blockIndex.contains hash then ⟨node, .ok false⟩
  else match node.tips.getTip block.hashPrevBlock with
  | some tip =>
    match node.tips.getActiveTip with
    | none => ⟨node, .error .nullDereference⟩
    | some activeTip =>
      if tip = activeTip then acceptLongest verifyScript node block prevBlockIndex
      else if tip.height + 1 > activeTip.height then
        acceptOvertaking verifyScript node block tip activeTip prevBlockIndex
      else acceptSide node block prevBlockIndex
  | none =>
    if prevBlockIndex.isSome then acceptSide node block prevBlockIndex else acceptOrphan node block

end Branches

end Node

end BitcoinGpuMiner
