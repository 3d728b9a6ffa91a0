import BitcoinGpuMiner.Model.CheckBlock

/-! # The transaction pool

Nothing here writes a chain store, so the operations return the pool alone.
-/

namespace BitcoinGpuMiner

set_option autoImplicit false

namespace Ledger

/-- The sum in `GetFees`; a missing transaction or output makes the fee zero. -/
def sumInputs (ledger : Ledger) : List TxIn → Int → Option Int
  | [], inValue => some inValue
  | txIn :: rest, inValue =>
    match ledger.txIndex[txIn.previousOutput.hashTransaction]? with
    | none => none
    | some idx =>
      match idx.tx.vout[txIn.previousOutput.outPutIdx.toNat]? with
      | none => none
      | some txOut => sumInputs ledger rest (toInt64 (inValue + txOut.nValue))

def getFees (ledger : Ledger) (tx : NetMessageTransaction) : Int :=
  match ledger.sumInputs tx.vin 0 with
  | none => 0
  | some inValue =>
    let ret := toInt64 (inValue - tx.getValueOut)
    if ret > 0 then ret else 0

def allInputsFound (ledger : Ledger) (tx : NetMessageTransaction) : Bool :=
  tx.vin.all fun txIn => ledger.txIndex.contains txIn.previousOutput.hashTransaction

end Ledger

namespace Node

/-- `TXMemPool::AcceptTx`. -/
def acceptTx (verifyScript : VerifyScript) (node : Node) (memPool : TXMemPool) (tx : NetMessageTransaction) :
    Except Fault (TXMemPool × Bool) :=
  let hash := tx.getHash
  if memPool.pool.contains hash || memPool.orphanPool.contains hash || memPool.miningPool.contains hash then
    .ok (memPool, false)
  else if !node.ledger.allInputsFound tx then
    -- an orphan transaction is put into `_miningPool`, not into `_orphanPool`
    .ok ({ memPool with miningPool := memPool.miningPool.insert hash tx }, true)
  else match node.tips.getActiveTip with
  | none => .error .nullDereference
  | some activeTip =>
    let height := activeTip.height + 1
    let scriptFlags := ScriptValidation.getBlockScriptFlags (BlockIndex.make height Uint256.null Uint256.null)
    match checkTransaction verifyScript node.ledger scriptFlags height none tx ⟨0, 0⟩ with
    | .error fault => .error fault
    | .ok none => .ok (memPool, false)
    | .ok (some _) => .ok ({ memPool with pool := memPool.pool.insert hash tx }, true)

/-- One round of `ProcOrphanTx`, on an entry of `_miningPool`. -/
def procOrphanEntry (verifyScript : VerifyScript) (node : Node) (memPool : TXMemPool)
    (entry : Uint256 × NetMessageTransaction) : Except Fault TXMemPool :=
  let erased (memPool : TXMemPool) : TXMemPool := { memPool with miningPool := memPool.miningPool.erase entry.1 }
  if node.ledger.txIndex.contains entry.2.getHash then .ok (erased memPool)
  else if node.ledger.allInputsFound entry.2 then
    match node.acceptTx verifyScript memPool entry.2 with
    | .error fault => .error fault
    | .ok (memPool, _) => .ok (erased memPool)
  else .ok memPool

/-- `TXMemPool::ProcOrphanTx`. `AcceptTx` refuses whatever is in `_miningPool`, so the map does
not grow while it is iterated. -/
def procOrphanTx (verifyScript : VerifyScript) (node : Node) : Except Fault TXMemPool :=
  node.memPool.miningPool.toList.foldlM (node.procOrphanEntry verifyScript) node.memPool

end Node

/-- What `GetNewBlockTxs` has selected so far. -/
structure Selection where
  memPool : TXMemPool
  nFees : Int
  nBlockWeight : Nat
  vtx : List NetMessageTransaction

def nBlockMaxWeight : Nat := maxBlockWeight - 4000

/-- The loop of `GetNewBlockTxs` over the entries of `_pool`. -/
def selectTxs (ledger : Ledger) : List (Uint256 × NetMessageTransaction) → Selection → Selection
  | [], selection => selection
  | (hash, tx) :: rest, selection =>
    let fee := ledger.getFees tx
    if fee = 0 then selectTxs ledger rest selection
    else
      -- an `int`, compared with an unsigned bound
      let nBlockWeight := (selection.nBlockWeight + tx.getSerializeSize * witnessScaleFactor) % 2 ^ 32
      if nBlockWeight > nBlockMaxWeight then { selection with nBlockWeight := nBlockWeight }
      else
        selectTxs ledger rest
          { memPool := { selection.memPool with
              miningPool := selection.memPool.miningPool.insert hash tx
              pool := selection.memPool.pool.erase hash }
            nFees := toInt64 (selection.nFees + fee)
            nBlockWeight := nBlockWeight
            vtx := selection.vtx ++ [tx] }

/-- `GetNewBlockTxs`, with the transactions it appends. The weight starts at the header's 80. -/
def getNewBlockTxs (ledger : Ledger) (memPool : TXMemPool) : Selection :=
  selectTxs ledger memPool.pool.toList ⟨{ memPool with miningPool := ∅ }, 0, 80, []⟩

namespace TXMemPool

def undoMiningTxs (memPool : TXMemPool) : TXMemPool :=
  { memPool with
    pool := memPool.miningPool.foldl (fun pool hash tx => pool.insert hash tx) memPool.pool
    miningPool := ∅ }

end TXMemPool

end BitcoinGpuMiner
