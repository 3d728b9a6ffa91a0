import BitcoinGpuMiner.Model.Transaction
import BitcoinGpuMiner.Encoding.Compact

/-! # Blocks, merkle roots and the regression-test parameters -/

namespace BitcoinGpuMiner

set_option autoImplicit false

structure BlockHeader where
  nVersion : Int
  hashPrevBlock : Uint256
  hashMerkleRoot : Uint256
  nTime : UInt32
  nBits : UInt32
  nNonce : UInt32
deriving DecidableEq

structure Block extends BlockHeader where
  vtx : List NetMessageTransaction
deriving DecidableEq

namespace BlockHeader

/-- The eighty bytes under the hash; the transaction count is left out of it. -/
def serialize (header : BlockHeader) : Bytes :=
  writeInt 4 header.nVersion ++ header.hashPrevBlock.bytes ++ header.hashMerkleRoot.bytes ++
  writeLE 4 header.nTime.toNat ++ writeLE 4 header.nBits.toNat ++ writeLE 4 header.nNonce.toNat

def getHash (header : BlockHeader) : Uint256 := Sha256.doubleHash256 header.serialize

def isNull (header : BlockHeader) : Bool := header.nBits == 0

@[simp] theorem length_serialize (header : BlockHeader) : header.serialize.length = 80 := by
  simp [serialize]

end BlockHeader

structure MerkleRootResult where
  hash : Uint256
  mutated : Bool
deriving DecidableEq

/-- One level: each pair of neighbours becomes the hash of its concatenation. -/
def hashPairs : List Uint256 → List Uint256
  | a :: b :: rest => Sha256.doubleHash256 (a.bytes ++ b.bytes) :: hashPairs rest
  | _ => []

def equalNeighbours : List Uint256 → Bool
  | a :: b :: rest => a == b || equalNeighbours rest
  | _ => false

/-- An odd level is extended by a copy of its last hash. -/
def padLevel (txHashes : List Uint256) : List Uint256 :=
  if txHashes.length % 2 = 1 then txHashes ++ txHashes.getLast?.toList else txHashes

/-- The loop of `ComputeMerkleRoot`; every level is shorter than the one below it. -/
def merkleLoop : Nat → List Uint256 → Bool → MerkleRootResult
  | 0, _, mutated => ⟨Uint256.null, mutated⟩
  | fuel + 1, txHashes, mutated =>
    if txHashes.length > 1 then
      -- the source searches for equal neighbours only when the flag is already set
      let mutated := if mutated then equalNeighbours txHashes || mutated else mutated
      merkleLoop fuel (hashPairs (padLevel txHashes)) mutated
    else ⟨txHashes.head?.getD Uint256.null, mutated⟩

def computeMerkleRoot (txHashes : List Uint256) : MerkleRootResult :=
  merkleLoop (txHashes.length + 1) txHashes false

namespace Block

def null : Block := ⟨⟨0, Uint256.null, Uint256.null, 0, 0, 0⟩, []⟩

def getHash (block : Block) : Uint256 := block.toBlockHeader.getHash

def serialize (block : Block) : Bytes :=
  block.toBlockHeader.serialize ++ writeVector (NetMessageTransaction.serialize true) block.vtx

/-- As for transactions, the size always includes the witnesses. -/
def getSerializeSize (block : Block) : Nat := block.serialize.length

def makeMerkleRoot (block : Block) : MerkleRootResult :=
  computeMerkleRoot (block.vtx.map NetMessageTransaction.getHash)

/-- The coinbase counts as the null hash. -/
def makeWitnessMerkleRoot (block : Block) : MerkleRootResult :=
  computeMerkleRoot (Uint256.null :: block.vtx.tail.map NetMessageTransaction.getWitnessHash)

end Block

/-- The fields of `ParamsBase` that the chain code reads, for the regression-test network. -/
structure Params where
  nSubsidyHalvingInterval : Int
  bip16Exception : Uint256
  bip65Height : Int
  bip66Height : Int
  csvHeight : Int
  segwitHeight : Int
  powLimit : Uint256
  hashGenesisBlock : Uint256

def params : Params where
  nSubsidyHalvingInterval := 150
  bip16Exception := Uint256.null
  bip65Height := 1351
  bip66Height := 1251
  csvHeight := 432
  segwitHeight := 0
  powLimit := Uint256.ofArith 0x7fffffffffffffffffffffffffffffffffffffffffffffffffffffffffffffff
  hashGenesisBlock :=
    Uint256.ofArith 0x0f9188f13cb7b2c71f2a335e3a4fc328bf5beb436012afca590b1a11466e2206

def maxBlockWeight : Nat := 4000000

def witnessScaleFactor : Nat := 4

def maxBlockSigopsCost : Nat := 80000

def coinbaseMaturity : Int := 100

/-- `486604799`, then `4` as a number push, then the headline; the output pays to a fixed key. -/
def genesisTransaction : NetMessageTransaction where
  vin := [{
    previousOutput := OutPoint.null
    scriptSig := CScript.pushBytes (CScript.pushBytes (CScript.pushInt64 [] 486604799) (CScript.serializeNum 4))
      [0x54, 0x68, 0x65, 0x20, 0x54, 0x69, 0x6d, 0x65, 0x73, 0x20, 0x30, 0x33, 0x2f, 0x4a, 0x61, 0x6e,
       0x2f, 0x32, 0x30, 0x30, 0x39, 0x20, 0x43, 0x68, 0x61, 0x6e, 0x63, 0x65, 0x6c, 0x6c, 0x6f, 0x72,
       0x20, 0x6f, 0x6e, 0x20, 0x62, 0x72, 0x69, 0x6e, 0x6b, 0x20, 0x6f, 0x66, 0x20, 0x73, 0x65, 0x63,
       0x6f, 0x6e, 0x64, 0x20, 0x62, 0x61, 0x69, 0x6c, 0x6f, 0x75, 0x74, 0x20, 0x66, 0x6f, 0x72, 0x20,
       0x62, 0x61, 0x6e, 0x6b, 0x73]
    sequence := 0xffffffff
    scriptWitness := [] }]
  vout := [{
    nValue := 50 * coin
    scriptPubKey := CScript.pushBytes [] (writeBE 65
      0x04678afdb0fe5548271967f1a67130b7105cd6a828e03909a67962e0ea1f61deb649f6bc3f4cef38c4f35504e51ec112de5c384df7ba0b8d578a4c702b6bf11d5f)
      ++ [0xac] }]
  nVersion := 1
  nLockTime := 0

def getGenesisBlock : Block where
  nVersion := 1
  hashPrevBlock := Uint256.null
  hashMerkleRoot := (computeMerkleRoot [genesisTransaction.getHash]).hash
  nTime := 1296688602
  nBits := 0x207fffff
  nNonce := 2
  vtx := [genesisTransaction]

/-- The built block carries the hash the parameters expect. -/
theorem getHash_getGenesisBlock : getGenesisBlock.getHash = params.hashGenesisBlock := by
  decide +kernel

theorem hashMerkleRoot_getGenesisBlock : getGenesisBlock.hashMerkleRoot =
    Uint256.ofArith 0x4a5e1e4baab89f3a32518a88c31bc87f618f76673e2cc77ab2127b7afdeda33b := by
  decide +kernel

end BitcoinGpuMiner
