import BitcoinGpuMiner.Chain.Contents
import BitcoinGpuMiner.Chain.Reachable

/-! # Plain blocks

The smallest blocks the node accepts: a coinbase that pays to a script anybody can satisfy. They
serve as concrete inputs and as the blocks in between in longer chains.
-/

namespace BitcoinGpuMiner

set_option autoImplicit false

/-- A coinbase with a free script and one output that pays to `OP_1`. -/
def plainCoinbase (scriptSig : CScript) (nValue : Int) : NetMessageTransaction where
  vin := [⟨OutPoint.null, scriptSig, 0xffffffff, []⟩]
  vout := [⟨nValue, [0x51]⟩]
  nVersion := 1
  nLockTime := 0

theorem isCoinBase_plainCoinbase (scriptSig : CScript) (nValue : Int) :
    (plainCoinbase scriptSig nValue).isCoinBase = true := rfl

theorem spends_plainCoinbase (scriptSig : CScript) (nValue : Int) : (plainCoinbase scriptSig nValue).spends = [] := by
  rw [NetMessageTransaction.spends, if_pos (isCoinBase_plainCoinbase ..)]

def plainSpend (pt : OutPoint) (nValue : Int) : NetMessageTransaction where
  vin := [⟨pt, [], 0xffffffff, []⟩]
  vout := [⟨nValue, [0x51]⟩]
  nVersion := 1
  nLockTime := 0

/-- A block at the limit of work with the right merkle root. -/
def blockOn (hashPrevBlock : Uint256) (vtx : List NetMessageTransaction) (nTime nNonce : UInt32) : Block where
  nVersion := 1
  hashPrevBlock := hashPrevBlock
  hashMerkleRoot := (computeMerkleRoot (vtx.map NetMessageTransaction.getHash)).hash
  nTime := nTime
  nBits := 0x207fffff
  nNonce := nNonce
  vtx := vtx

def anyScript : VerifyScript := fun _ _ _ _ _ _ _ => true

/-- Blocks on the genesis block that differ in their coinbase. -/
def rivalBlock (tag : UInt8) : Block :=
  blockOn params.hashGenesisBlock [plainCoinbase [tag, 0] (50 * coin)] 1296688603 1

namespace Node

/-- Two blocks of height one; the second has the larger hash, so the first stays active. -/
def tied : Node := acceptAll anyScript initial [rivalBlock 1, rivalBlock 2]

theorem tied_evaluated : returnsAll anyScript initial [rivalBlock 1, rivalBlock 2] = true ∧
    tied.tips.getActiveTip = some (BlockIndex.make 1 (rivalBlock 1).getHash params.hashGenesisBlock) ∧
    tied.blockIndex[(rivalBlock 2).getHash]? =
      some (BlockIndex.make 1 (rivalBlock 2).getHash params.hashGenesisBlock) := by
  decide +kernel

theorem tied_reachable : Reachable anyScript tied := Reachable.acceptAll _ .refl tied_evaluated.1

theorem tied_activeTip :
    tied.tips.getActiveTip = some (BlockIndex.make 1 (rivalBlock 1).getHash params.hashGenesisBlock) :=
  tied_evaluated.2.1

theorem tied_rival : tied.blockIndex[(rivalBlock 2).getHash]? =
    some (BlockIndex.make 1 (rivalBlock 2).getHash params.hashGenesisBlock) :=
  tied_evaluated.2.2

def secondRival : Block := blockOn (rivalBlock 2).getHash [plainCoinbase [3, 0] (50 * coin)] 1296688603 6

end Node

end BitcoinGpuMiner
