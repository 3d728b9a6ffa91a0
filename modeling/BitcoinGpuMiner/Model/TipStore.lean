import BitcoinGpuMiner.Encoding.Unserialize
import BitcoinGpuMiner.Model.Store

/-! # The tip manager over the bytes in its database

The whole map is written under one key after every change, and read again when the map in memory is empty, as it is
after a restart.
-/

namespace BitcoinGpuMiner

open Foundation

set_option autoImplicit false

namespace BlockIndex

def serialize (index : BlockIndex) : Bytes :=
  writeInt 8 index.height ++ (index.hash.bytes ++ (index.hashPrevBlock.bytes ++ index.hashNextBlock.bytes))

def unserialize (stale : Nat → UInt8) : Reader BlockIndex := do
  let height ← readInt stale 8
  let hash ← readUint256
  let hashPrevBlock ← readUint256
  let hashNextBlock ← readUint256
  pure ⟨height, hash, hashPrevBlock, hashNextBlock⟩

end BlockIndex

/-- `Serialize` of a pair. -/
def serializeEntry (entry : Uint256 × BlockIndex) : Bytes := entry.1.bytes ++ entry.2.serialize

def unserializeEntry (stale : Nat → UInt8) : Reader (Uint256 × BlockIndex) := do
  let hash ← readUint256
  let index ← BlockIndex.unserialize stale
  pure (hash, index)

/-- `Serialize` of a map, in the order of its keys. -/
def serializeTips (map : HashMap BlockIndex) : Bytes := writeVector serializeEntry map.toList

/-- `insert` with a hint, which changes nothing if the key is there already. -/
def insertEntries (entries : List (Uint256 × BlockIndex)) : HashMap BlockIndex :=
  entries.foldl (fun map entry => map.insertIfNew entry.1 entry.2) ∅

def unserializeTips (stale : Nat → UInt8) : Reader (HashMap BlockIndex) := do
  let entries ← readVector stale (unserializeEntry stale)
  pure (insertEntries entries)

/-- The tip map in memory, and the value under `TIP_ALL_KEY_KEY`. -/
structure TipStore where
  tipMap : HashMap BlockIndex
  tipAll : Option Bytes

namespace TipStore

/-- A first start. -/
def fresh : TipStore := ⟨∅, none⟩

section Calls

variable (stale : Nat → UInt8)

/-- The store with the map that is returned in it. -/
def getBlockTipMap (store : TipStore) : Except ReadFault TipStore :=
  if store.tipMap.isEmpty then
    match store.tipAll with
    | none => .ok store
    | some buf => (unserializeTips stale ⟨buf, 0, false⟩).map fun result => { store with tipMap := result.1 }
  else .ok store

def updateBlockTipMap (store : TipStore) : TipStore := { store with tipAll := some (serializeTips store.tipMap) }

def addTip (store : TipStore) (index : BlockIndex) : Except ReadFault TipStore := do
  let store ← store.getBlockTipMap stale
  pure { store with tipMap := store.tipMap.insert index.hash index }.updateBlockTipMap

def updateTip (store : TipStore) (tip : BlockIndex) : Except ReadFault TipStore := do
  let store ← store.getBlockTipMap stale
  -- the parent's entry is erased from a copy of the map
  let _map := store.tipMap.erase tip.hashPrevBlock
  store.addTip stale tip

/-- What `GetTip` answers; the map has been read by then. -/
def getTip (store : TipStore) (hash : Uint256) : Except ReadFault (Option BlockIndex) :=
  (store.getBlockTipMap stale).map fun store => store.tipMap[hash]?

def getActiveTip (store : TipStore) : Except ReadFault (Option BlockIndex) :=
  (store.getBlockTipMap stale).map fun store =>
    store.tipMap.foldl (fun active _ tip => BlockTipManager.pickActive active tip) none

end Calls

end TipStore

inductive TipCall where
  | addTip (index : BlockIndex)
  | updateTip (tip : BlockIndex)
  | getTip (hash : Uint256)
  | getActiveTip
  | restart
deriving DecidableEq

namespace TipCall

/-- The store after a call; a restart loses what is in memory. -/
def after (stale : Nat → UInt8) (store : TipStore) : TipCall → Except ReadFault TipStore
  | addTip index => store.addTip stale index
  | updateTip tip => store.updateTip stale tip
  | getTip _ => store.getBlockTipMap stale
  | getActiveTip => store.getBlockTipMap stale
  | restart => .ok { store with tipMap := ∅ }

def run (stale : Nat → UInt8) (calls : List TipCall) : Except ReadFault TipStore :=
  calls.foldlM (after stale) TipStore.fresh

/-- The tip that a call adds. -/
def tip? : TipCall → Option BlockIndex
  | addTip index => some index
  | updateTip tip => some tip
  | _ => none

end TipCall

end BitcoinGpuMiner
