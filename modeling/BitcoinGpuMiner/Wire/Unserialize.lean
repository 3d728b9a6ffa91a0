import BitcoinGpuMiner.Encoding.Unserialize
import BitcoinGpuMiner.Model.Block

/-! # Transactions and blocks from the wire

What a format leaves out keeps what the object had: a new input has no witness and a new transaction no outputs.
-/

namespace BitcoinGpuMiner

open Foundation

set_option autoImplicit false

variable (stale : Nat → UInt8)

def OutPoint.unserialize : Reader OutPoint := do
  let hashTransaction ← readUint256
  let outPutIdx ← readUInt32 stale
  pure ⟨hashTransaction, outPutIdx⟩

def TxIn.unserialize : Reader TxIn := do
  let previousOutput ← OutPoint.unserialize stale
  let scriptSig ← readBytes stale
  let sequence ← readUInt32 stale
  pure ⟨previousOutput, scriptSig, sequence, []⟩

def TxOut.unserialize : Reader TxOut := do
  let nValue ← readInt stale 8
  let scriptPubKey ← readBytes stale
  pure ⟨nValue, scriptPubKey⟩

namespace NetMessageTransaction

structure Inputs where
  flags : Nat
  vin : List TxIn
  vout : List TxOut

/-- A first, empty vector of inputs announces the flags. With flags of zero there is nothing more to read, and the
object keeps its outputs `vout`. -/
def readInputsOver (allowWitness : Bool) (vout : List TxOut) : Reader Inputs := do
  let vin ← readVector stale (TxIn.unserialize stale)
  if vin.isEmpty && allowWitness then do
    let flags ← readData stale 1
    if flags ≠ 0 then do
      let vin ← readVector stale (TxIn.unserialize stale)
      let vout ← readVector stale (TxOut.unserialize stale)
      pure ⟨flags, vin, vout⟩
    else pure ⟨flags, vin, vout⟩
  else do
    let vout ← readVector stale (TxOut.unserialize stale)
    pure ⟨0, vin, vout⟩

def readInputs (allowWitness : Bool) : Reader Inputs := readInputsOver stale allowWitness []

def readWitness (txIn : TxIn) : Reader TxIn := do
  let stack ← readVector stale (readBytes stale)
  pure { txIn with scriptWitness := stack }

def readWitnesses (allowWitness : Bool) (inputs : Inputs) : Reader Inputs :=
  if inputs.flags &&& 1 ≠ 0 && allowWitness then do
    let vin ← Parser.each (readWitness stale) inputs.vin
    pure { inputs with flags := inputs.flags ^^^ 1, vin := vin }
  else pure inputs

/-- Flags that are left over make the transaction an empty one. -/
def Inputs.cleared (inputs : Inputs) : Inputs := if inputs.flags ≠ 0 then ⟨inputs.flags, [], []⟩ else inputs

/-- `Unserialize` of an object with the outputs `vout`. -/
def unserializeOver (allowWitness : Bool) (vout : List TxOut) : Reader NetMessageTransaction := do
  let nVersion ← readInt stale 4
  let inputs ← readInputsOver stale allowWitness vout
  let inputs ← readWitnesses stale allowWitness inputs
  let nLockTime ← readUInt32 stale
  pure ⟨inputs.cleared.vin, inputs.cleared.vout, nVersion, nLockTime⟩

/-- `Unserialize` of a new object. -/
def unserialize (allowWitness : Bool) : Reader NetMessageTransaction := unserializeOver stale allowWitness []

end NetMessageTransaction

/-- A header of its own is followed by the number of transactions, unless the stream is for hashing. -/
def readTxCount (isHeader getHash : Bool) : Reader Nat :=
  if isHeader && !getHash then readCompactSize stale else pure 0

def BlockHeader.unserialize (isHeader getHash : Bool) : Reader BlockHeader := do
  let nVersion ← readInt stale 4
  let hashPrevBlock ← readUint256
  let hashMerkleRoot ← readUint256
  let nTime ← readUInt32 stale
  let nBits ← readUInt32 stale
  let nNonce ← readUInt32 stale
  let _nTxCount ← readTxCount stale isHeader getHash
  pure ⟨nVersion, hashPrevBlock, hashMerkleRoot, nTime, nBits, nNonce⟩

/-- A block is not a header by itself, so it has no count of its own. -/
def Block.unserialize (allowWitness getHash : Bool) : Reader Block := do
  let header ← BlockHeader.unserialize stale false getHash
  let vtx ← readVector stale (NetMessageTransaction.unserialize stale allowWitness)
  pure ⟨header, vtx⟩

end BitcoinGpuMiner
