import BitcoinGpuMiner.Chain.PlainBlock

/-! # Weight and size limits

A `CSizeComputer` counts what is written to it, and the bit that leaves the witnesses out is looked for in its
version alone. `GetSerializeSize` takes the type first, so the callers that pass one number set the type and
leave the version at zero.
-/

namespace BitcoinGpuMiner

set_option autoImplicit false

def allowsWitness (nVersion : Nat) : Bool := nVersion &&& serializeTransactionNoWitness == 0

/-- The formula in the comments on `GetWeight`, and a limit on the size without witnesses. -/
structure WeighsRight (weight : Nat) (oversize : Prop) (bare full : Nat) : Prop where
  weight : weight = 3 * bare + full
  limit : oversize ↔ 4 * bare > maxBlockWeight

theorem weighsRight_iff {bare full witness : Nat} (hFull : full = bare + witness) :
    WeighsRight (full * (witnessScaleFactor - 1) + full) (full * witnessScaleFactor > maxBlockWeight) bare full ↔
      witness = 0 := by
  have hFactor : witnessScaleFactor = 4 := rfl
  rw [hFactor]
  constructor
  · intro hRight
    have hWeight := hRight.weight
    omega
  · intro hNone
    exact ⟨by omega, by omega⟩

namespace NetMessageTransaction

/-- `::GetSerializeSize(tx, nType, nVersion)`. -/
def getSerializeSizeAs (_nType nVersion : Nat) (tx : NetMessageTransaction) : Nat :=
  (tx.serialize (allowsWitness nVersion)).length

def getWeight (tx : NetMessageTransaction) : Nat :=
  tx.getSerializeSizeAs (protocolVersion ||| serializeTransactionNoWitness) 0 * (witnessScaleFactor - 1) +
    tx.getSerializeSizeAs protocolVersion 0

/-- The size limit in `CheckTransaction`. -/
def Oversize (tx : NetMessageTransaction) : Prop :=
  tx.getSerializeSizeAs (protocolVersion ||| serializeTransactionNoWitness) 0 * witnessScaleFactor > maxBlockWeight

/-- The marker, the flags and the witness stacks. -/
def witnessSize (tx : NetMessageTransaction) : Nat :=
  if tx.hasWitness then 2 + (tx.vin.map fun txIn => (writeVector writeBytes txIn.scriptWitness).length).sum else 0

theorem witnessSize_eq_zero_iff (tx : NetMessageTransaction) : tx.witnessSize = 0 ↔ tx.hasWitness = false := by
  cases hWitness : tx.hasWitness <;> simp [witnessSize, hWitness]

theorem length_serialize_true (tx : NetMessageTransaction) :
    (tx.serialize true).length = (tx.serialize false).length + tx.witnessSize := by
  cases hWitness : tx.hasWitness with
  | true =>
    simp only [serialize, witnessSize, hWitness, Bool.and_true, Bool.and_false, if_true, Bool.false_eq_true, if_false,
      List.length_append, List.length_flatMap, List.length_cons, List.length_nil]
    omega
  | false => simp [serialize, witnessSize, hWitness]

/-- What the limit refuses, whatever else is right with the transaction. -/
theorem Oversize.refused {tx : NetMessageTransaction} (hOversize : tx.Oversize) (verifyScript : VerifyScript)
    (ledger : Ledger) (scriptFlags : UInt32) (height : Int) (overlay : Option Overlay) (result : CheckTransactionResult) :
    checkTransaction verifyScript ledger scriptFlags height overlay tx result = .ok none := by
  have hSize : tx.getSerializeSize * witnessScaleFactor > maxBlockWeight := hOversize
  rw [checkTransaction, if_pos hSize, ite_self, ite_self]

end NetMessageTransaction

namespace Block

def serializeWith (allowWitness : Bool) (block : Block) : Bytes :=
  block.toBlockHeader.serialize ++ writeVector (NetMessageTransaction.serialize allowWitness) block.vtx

/-- `::GetSerializeSize(block, nType, nVersion)`. -/
def getSerializeSizeAs (_nType nVersion : Nat) (block : Block) : Nat :=
  (block.serializeWith (allowsWitness nVersion)).length

def getWeight (block : Block) : Nat :=
  block.getSerializeSizeAs (protocolVersion ||| serializeTransactionNoWitness) 0 * (witnessScaleFactor - 1) +
    block.getSerializeSizeAs protocolVersion 0

/-- The size limit in `CheckBlock`, without the conditions on the number of transactions. -/
def Oversize (block : Block) : Prop :=
  block.getSerializeSizeAs (protocolVersion ||| serializeTransactionNoWitness) 0 * witnessScaleFactor > maxBlockWeight

theorem Oversize.refused {block : Block} (hOversize : block.Oversize) : checkBlockContents block = false := by
  have hSize : decide (block.getSerializeSize * witnessScaleFactor > maxBlockWeight) = true := decide_eq_true hOversize
  rw [checkBlockContents, hSize, Bool.or_true, if_pos rfl]

theorem length_serializeWith_true (block : Block) : (block.serializeWith true).length =
    (block.serializeWith false).length + (block.vtx.map NetMessageTransaction.witnessSize).sum := by
  have hSum : (block.vtx.map fun tx => (tx.serialize true).length).sum =
      (block.vtx.map fun tx => (tx.serialize false).length).sum +
        (block.vtx.map NetMessageTransaction.witnessSize).sum := by
    rw [← List.sum_map_add]
    congr 2
    funext tx
    exact tx.length_serialize_true
  rw [serializeWith, serializeWith, List.length_append, List.length_append, length_writeVector, length_writeVector, hSum]
  omega

theorem sum_witnessSize_eq_zero_iff (block : Block) :
    (block.vtx.map NetMessageTransaction.witnessSize).sum = 0 ↔ ∀ tx ∈ block.vtx, tx.hasWitness = false := by
  simp only [List.sum_eq_zero_iff_forall_eq_nat, List.forall_mem_map, NetMessageTransaction.witnessSize_eq_zero_iff]

end Block

/-- The weight and the limit are right exactly when there is no witness. -/
theorem weighsRight_iff_noWitness (tx : NetMessageTransaction) (block : Block) :
    (WeighsRight tx.getWeight tx.Oversize (tx.serialize false).length (tx.serialize true).length ↔
      tx.hasWitness = false) ∧
    (WeighsRight block.getWeight block.Oversize (block.serializeWith false).length (block.serializeWith true).length ↔
      ∀ tx ∈ block.vtx, tx.hasWitness = false) := by
  constructor
  · rw [← tx.witnessSize_eq_zero_iff]
    exact weighsRight_iff tx.length_serialize_true
  · rw [← block.sum_witnessSize_eq_zero_iff]
    exact weighsRight_iff block.length_serializeWith_true

def witnessCoinbase (scriptWitness : List Bytes) : NetMessageTransaction :=
  ⟨[⟨OutPoint.null, [1, 0], 0xffffffff, scriptWitness⟩], [⟨50 * coin, [0x51]⟩], 1, 0⟩

section Coinbase

variable (item : Bytes)

theorem length_witnessCoinbase : ((witnessCoinbase [item]).serialize false).length + item.length <
    ((witnessCoinbase [item]).serialize true).length := by
  have hWitness : item.length < (witnessCoinbase [item]).witnessSize := by
    simp only [witnessCoinbase, NetMessageTransaction.witnessSize, NetMessageTransaction.hasWitness, List.any_cons,
      List.isEmpty_cons, Bool.not_false, Bool.true_or, if_true, List.map_cons, List.map_nil, List.sum_cons, List.sum_nil,
      length_writeVector, length_writeBytes]
    omega
  have hLength := (witnessCoinbase [item]).length_serialize_true
  omega

theorem oversize_witnessCoinbase {item : Bytes} (hLong : 1000000 ≤ item.length) : (witnessCoinbase [item]).Oversize := by
  have hLength := length_witnessCoinbase item
  have hSize : ((witnessCoinbase [item]).serialize true).length * 4 > 4000000 := by omega
  exact hSize

theorem getWeight_witnessCoinbase : (witnessCoinbase [item]).getWeight ≠
    3 * ((witnessCoinbase [item]).serialize false).length + ((witnessCoinbase [item]).serialize true).length := by
  have hLength := length_witnessCoinbase item
  have hWeight : (witnessCoinbase [item]).getWeight = ((witnessCoinbase [item]).serialize true).length * 3 +
    ((witnessCoinbase [item]).serialize true).length := rfl
  omega

end Coinbase

/-- A coinbase that `CheckTransaction` takes is refused with a witness of a million bytes. -/
theorem exists_refused_for_witness : ∃ item : Bytes,
    (witnessCoinbase [item]).getWeight ≠
      3 * ((witnessCoinbase [item]).serialize false).length + ((witnessCoinbase [item]).serialize true).length ∧
    4 * ((witnessCoinbase [item]).serialize false).length ≤ maxBlockWeight ∧
    checkTransaction anyScript Ledger.empty 0 1 none (witnessCoinbase []) ⟨0, 0⟩ = .ok (some ⟨0, 1⟩) ∧
    checkTransaction anyScript Ledger.empty 0 1 none (witnessCoinbase [item]) ⟨0, 0⟩ = .ok none := by
  have hShort (item : Bytes) : 4 * ((witnessCoinbase [item]).serialize false).length ≤ maxBlockWeight := by
    rw [show (witnessCoinbase [item]).serialize false = (witnessCoinbase []).serialize false from rfl]
    decide
  have hTaken : checkTransaction anyScript Ledger.empty 0 1 none (witnessCoinbase []) ⟨0, 0⟩ = .ok (some ⟨0, 1⟩) := by
    decide +kernel
  have hLong : ∃ item : Bytes, 1000000 ≤ item.length := ⟨List.replicate 1000000 0, (List.length_replicate).ge⟩
  obtain ⟨item, hLong⟩ := hLong
  exact ⟨item, getWeight_witnessCoinbase item, hShort item, hTaken, (oversize_witnessCoinbase hLong).refused ..⟩

end BitcoinGpuMiner
