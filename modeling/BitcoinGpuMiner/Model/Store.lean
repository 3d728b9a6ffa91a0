import BitcoinGpuMiner.Model.Block

/-! # The databases and the two managers over them

A database is an ordered map from keys to decoded values, and every write succeeds.
The iteration order of the maps is the key order, which is what the source relies on
when it scans the tips or the pool.
-/

namespace BitcoinGpuMiner

set_option autoImplicit false

abbrev HashMap (α : Type) := Std.ExtTreeMap Uint256 α compare

structure BlockIndex where
  height : Int
  hash : Uint256
  hashPrevBlock : Uint256
  hashNextBlock : Uint256
deriving DecidableEq

namespace BlockIndex

def invalidBlockHeight : Int := -1

/-- The default constructor. -/
def empty : BlockIndex := ⟨invalidBlockHeight, Uint256.null, Uint256.null, Uint256.null⟩

def make (height : Int) (hash hashPrevBlock : Uint256) : BlockIndex :=
  ⟨height, hash, hashPrevBlock, Uint256.null⟩

def isNull (index : BlockIndex) : Bool := index.hash.isNull

end BlockIndex

/-- What the UTXO database keeps under an `OutPoint`. -/
structure UtxoEntry where
  hashBlock : Uint256
  height : Int
  isUsed : Bool
deriving DecidableEq

abbrev UtxoSet := Std.ExtTreeMap OutPoint UtxoEntry compare

namespace UtxoSet

def put (utxo : UtxoSet) (pt : OutPoint) (entry : UtxoEntry) : UtxoSet :=
  if pt.isNull then utxo else utxo.insert pt entry

def canUse (utxo : UtxoSet) (pt : OutPoint) : Option UtxoEntry :=
  match utxo[pt]? with
  | none => none
  | some entry => if entry.isUsed then none else some entry

def setUsed (isUsed : Bool) (utxo : UtxoSet) (pt : OutPoint) : UtxoSet :=
  match utxo[pt]? with
  | none => utxo
  | some entry => utxo.put pt { entry with isUsed := isUsed }

def use (utxo : UtxoSet) (pt : OutPoint) : UtxoSet := setUsed true utxo pt

def unUsed (utxo : UtxoSet) (pt : OutPoint) : UtxoSet := setUsed false utxo pt

def remove (utxo : UtxoSet) (pt : OutPoint) : UtxoSet := utxo.erase pt

end UtxoSet

namespace NetMessageTransaction

def outPoints (tx : NetMessageTransaction) : List OutPoint :=
  (List.range tx.vout.length).map fun i => ⟨tx.getHash, UInt32.ofNat i⟩

/-- The outputs named by the inputs; a coinbase spends nothing. -/
def spends (tx : NetMessageTransaction) : List OutPoint :=
  if tx.isCoinBase then [] else tx.vin.map TxIn.previousOutput

end NetMessageTransaction

namespace UtxoSet

def cacheUTXO (utxo : UtxoSet) (tx : NetMessageTransaction) (hashBlock : Uint256) (height : Int) : UtxoSet :=
  tx.outPoints.foldl (fun utxo pt => utxo.put pt ⟨hashBlock, height, false⟩)
    (tx.spends.foldl use utxo)

def unCacheUTXO (utxo : UtxoSet) (tx : NetMessageTransaction) : UtxoSet :=
  tx.outPoints.foldl remove (tx.spends.foldl unUsed utxo)

end UtxoSet

structure TxIdx where
  hashBlock : Uint256
  height : Int
  tx : NetMessageTransaction
deriving DecidableEq

/-- The transaction index and the UTXO set, the two stores that follow the active chain. -/
structure Ledger where
  txIndex : HashMap TxIdx
  utxo : UtxoSet

namespace Ledger

def empty : Ledger := ⟨∅, ∅⟩

/-- One round of `ProcessTransactions`, without the pool. -/
def processTransaction (hashBlock : Uint256) (height : Int) (ledger : Ledger) (tx : NetMessageTransaction) :
    Ledger where
  txIndex := ledger.txIndex.insert tx.getHash ⟨hashBlock, height, tx⟩
  utxo := ledger.utxo.cacheUTXO tx hashBlock height

def processTransactions (ledger : Ledger) (vtx : List NetMessageTransaction) (hashBlock : Uint256) (height : Int) :
    Ledger :=
  vtx.foldl (processTransaction hashBlock height) ledger

/-- What the reorganisation does to a transaction of the abandoned branch. -/
def clearTransaction (ledger : Ledger) (tx : NetMessageTransaction) : Ledger where
  txIndex := ledger.txIndex.erase tx.getHash
  utxo := ledger.utxo.unCacheUTXO tx

end Ledger

/-- The tip map in memory and the value last written under `TIP_ALL_KEY_KEY`. -/
structure BlockTipManager where
  tipMap : HashMap BlockIndex
  tipAll : Option (HashMap BlockIndex)

namespace BlockTipManager

def empty : BlockTipManager := ⟨∅, none⟩

def getBlockTipMap (manager : BlockTipManager) : HashMap BlockIndex :=
  if manager.tipMap.isEmpty then manager.tipAll.getD ∅ else manager.tipMap

def getTip (manager : BlockTipManager) (hash : Uint256) : Option BlockIndex :=
  manager.getBlockTipMap[hash]?

def pickActive (active : Option BlockIndex) (tip : BlockIndex) : Option BlockIndex :=
  match active with
  | none => some tip
  | some best => if tip.height > best.height then some tip else some best

def getActiveTip (manager : BlockTipManager) : Option BlockIndex :=
  manager.getBlockTipMap.foldl (fun active _ tip => pickActive active tip) none

def addTip (manager : BlockTipManager) (index : BlockIndex) : BlockTipManager :=
  let tipMap := manager.getBlockTipMap.insert index.hash index
  ⟨tipMap, some tipMap⟩

/-- Only `AddTip` has an effect here: see the comment on the erased entry. -/
def updateTip (manager : BlockTipManager) (tip : BlockIndex) : BlockTipManager :=
  -- `auto map` copies the map, so the parent's entry is erased from the copy and stays in `_tipMap`
  let _map := manager.getBlockTipMap.erase tip.hashPrevBlock
  manager.addTip tip

end BlockTipManager

structure TXMemPool where
  pool : HashMap NetMessageTransaction
  orphanPool : HashMap NetMessageTransaction
  miningPool : HashMap NetMessageTransaction

namespace TXMemPool

def empty : TXMemPool := ⟨∅, ∅, ∅⟩

def remove (memPool : TXMemPool) (hash : Uint256) : TXMemPool :=
  { memPool with pool := memPool.pool.erase hash, miningPool := memPool.miningPool.erase hash }

end TXMemPool

/-- Everything `AcceptBlock` and `AcceptTx` read or write. The orphan blocks are the entries of
the multimap in its order: by parent hash, then by arrival. -/
structure Node where
  blocks : HashMap Block
  blockIndex : HashMap BlockIndex
  tips : BlockTipManager
  ledger : Ledger
  orphanBlocks : List (Uint256 × Block)
  memPool : TXMemPool

namespace Node

def empty : Node := ⟨∅, ∅, BlockTipManager.empty, Ledger.empty, [], TXMemPool.empty⟩

/-- `BlockIndex::GetBlock`: the null block when the database has none. -/
def getBlock (node : Node) (hash : Uint256) : Block := node.blocks[hash]?.getD Block.null

end Node

/-- Ways a call can end without returning. -/
inductive Fault where
  | nullDereference
  | deadlock
  | diverges
deriving DecidableEq

end BitcoinGpuMiner
