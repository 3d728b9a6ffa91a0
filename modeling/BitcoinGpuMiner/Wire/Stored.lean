import BitcoinGpuMiner.Model.Disk
import BitcoinGpuMiner.Wire.RoundTrip

/-! # Blocks that come back from the database

A transaction without inputs is written in the basic format, and what is written for it starts like the extended one.
If it has outputs, the bytes are taken for something else; every other block of limited size comes back as it was.
-/

namespace BitcoinGpuMiner

open Foundation

set_option autoImplicit false

/-- The range of the version's type. -/
def Block.FitsVersion (block : Block) : Prop := -2 ^ 31 ≤ block.nVersion ∧ block.nVersion < 2 ^ 31

instance (block : Block) : Decidable block.FitsVersion := inferInstanceAs (Decidable (_ ∧ _))

namespace NetMessageTransaction

/-- The bytes of the transaction are not taken for another one. -/
def Recognisable (tx : NetMessageTransaction) : Prop := tx.vin = [] → tx.vout = []

/-- The ranges of the types of the version and the amounts. -/
def FitsTypes (tx : NetMessageTransaction) : Prop :=
  (-2 ^ 31 ≤ tx.nVersion ∧ tx.nVersion < 2 ^ 31) ∧
    ∀ txOut ∈ tx.vout, -2 ^ 63 ≤ txOut.nValue ∧ txOut.nValue < 2 ^ 63

instance (tx : NetMessageTransaction) : Decidable tx.Recognisable := inferInstanceAs (Decidable (_ → _))

instance (tx : NetMessageTransaction) : Decidable tx.FitsTypes := inferInstanceAs (Decidable (_ ∧ _))

variable {stale : Nat → UInt8} {tx : NetMessageTransaction}

/-- With flags of zero nothing more is read, which is right for a transaction with nothing in it. -/
theorem reads_nothing : Reads (readInputs stale true) (writeVector TxIn.serialize [] ++ writeVector TxOut.serialize [])
    ⟨0, [], []⟩ := by
  have hNone : Reads (readVector stale (TxIn.unserialize stale)) (writeVector TxIn.serialize []) [] :=
    TxIn.reads_vector (Nat.zero_le _) (fun _ hNil => absurd hNil List.not_mem_nil)
  have hFlags : Reads (readData stale 1) (writeLE 1 0) 0 := reads_data (by decide)
  have hEnd : Reads (pure ⟨0, [], []⟩ : Reader Inputs) [] ⟨0, [], []⟩ := Reads.ret _
  have hBytes : writeVector TxOut.serialize [] = writeLE 1 0 ++ [] := rfl
  rw [hBytes]
  refine hNone.bind ?_
  rw [if_pos (by rfl : (([] : List TxIn).isEmpty && true) = true)]
  refine hFlags.bind ?_
  rw [if_neg (by decide)]
  exact hEnd

theorem Encodable.reads_recognisable (hEncodable : tx.Encodable) (hRecognisable : tx.Recognisable) :
    Reads (unserialize stale true) (tx.serialize true) tx := by
  by_cases hVin : tx.vin = []
  case neg => exact hEncodable.reads_true hVin
  case pos =>
    obtain ⟨vin, vout, nVersion, nLockTime⟩ := tx
    cases hVin
    cases hRecognisable rfl
    have hBody : Reads (readBody stale true) (basicBody ⟨[], [], nVersion, nLockTime⟩) (nVersion, ⟨0, [], []⟩) :=
      hEncodable.reads_body reads_nothing (reads_noWitnesses true rfl)
    rw [serialize_of_noWitness rfl, serialize_false]
    exact reads_of_body hBody nLockTime

theorem length_parts_le (tx : NetMessageTransaction) :
    (writeVector TxIn.serialize tx.vin).length ≤ (tx.serialize true).length ∧
      (writeVector TxOut.serialize tx.vout).length ≤ (tx.serialize true).length := by
  rw [serialize]
  simp only [List.length_append]
  omega

theorem length_stack_le {txIn : TxIn} (hTxIn : txIn ∈ tx.vin) (hStack : txIn.scriptWitness ≠ []) :
    (writeVector writeBytes txIn.scriptWitness).length ≤ (tx.serialize true).length := by
  have hWitness : tx.hasWitness = true := by
    rw [hasWitness, List.any_eq_true]
    exact ⟨txIn, hTxIn, by simp [hStack]⟩
  obtain ⟨before, after, hVin⟩ := List.append_of_mem hTxIn
  rw [serialize_of_hasWitness hWitness, extendedForm, extendedBody, hVin, List.flatMap_append, List.flatMap_cons]
  simp only [List.length_append]
  omega

theorem encodable_txIn {txIn : TxIn} (hTxIn : txIn ∈ tx.vin) (hSize : (tx.serialize true).length ≤ maxSize) :
    txIn.Encodable := by
  have hInputs := tx.length_parts_le.1
  have hInput := length_writeVector_ge_item TxIn.serialize hTxIn
  have hScript := txIn.length_scriptSig_le
  refine ⟨by omega, ?_, ?_⟩
  · by_cases hStack : txIn.scriptWitness = []
    · rw [hStack]
      exact Nat.zero_le _
    · have hCount : txIn.scriptWitness.length ≤ (writeVector writeBytes txIn.scriptWitness).length := by
        apply length_writeVector_ge_count
        intro item _
        rw [length_writeBytes]
        exact Nat.add_pos_left (length_writeCompactSize_pos _) _
      have hLe := length_stack_le hTxIn hStack
      omega
  · intro item hItem
    have hBytes : item.length ≤ (writeBytes item).length := by
      rw [length_writeBytes]
      exact Nat.le_add_left _ _
    have hWritten := length_writeVector_ge_item writeBytes hItem
    have hLe := length_stack_le hTxIn (List.ne_nil_of_mem hItem)
    omega

theorem length_vin_le (tx : NetMessageTransaction) : tx.vin.length ≤ tx.getSerializeSize := by
  refine Nat.le_trans (length_writeVector_ge_count ?_) tx.length_parts_le.1
  intro txIn _
  rw [TxIn.serialize, List.length_append, length_writeLE]
  omega

theorem FitsTypes.encodable (hTypes : tx.FitsTypes) (hSize : (tx.serialize true).length ≤ maxSize) : tx.Encodable := by
  obtain ⟨hVin, hVout⟩ := tx.length_parts_le
  have hInputs : tx.vin.length ≤ (tx.serialize true).length := tx.length_vin_le
  have hOutputs : tx.vout.length ≤ (writeVector TxOut.serialize tx.vout).length := by
    apply length_writeVector_ge_count
    intro txOut _
    rw [TxOut.serialize, List.length_append, length_writeInt]
    omega
  refine ⟨hTypes.1.1, hTypes.1.2, by omega, by omega, fun txIn hTxIn => encodable_txIn hTxIn hSize, ?_⟩
  intro txOut hTxOut
  obtain ⟨hLow, hHigh⟩ := hTypes.2 txOut hTxOut
  have hOutput := length_writeVector_ge_item TxOut.serialize hTxOut
  have hScript := txOut.length_scriptPubKey_le
  exact ⟨hLow, hHigh, by omega⟩

end NetMessageTransaction

namespace Block

def FitsTypes (block : Block) : Prop := block.FitsVersion ∧ ∀ tx ∈ block.vtx, tx.FitsTypes

def Recognisable (block : Block) : Prop := ∀ tx ∈ block.vtx, tx.Recognisable

instance (block : Block) : Decidable block.FitsTypes := inferInstanceAs (Decidable (_ ∧ _))

instance (block : Block) : Decidable block.Recognisable := inferInstanceAs (Decidable (∀ tx ∈ block.vtx, tx.Recognisable))

variable {stale : Nat → UInt8} {block : Block}

theorem FitsTypes.encodable (hTypes : block.FitsTypes) (hSize : block.serialize.length ≤ maxSize) : block.Encodable := by
  have hVector : (writeVector (NetMessageTransaction.serialize true) block.vtx).length ≤ block.serialize.length := by
    rw [serialize, List.length_append]
    exact Nat.le_add_left _ _
  have hTx : ∀ tx ∈ block.vtx, (tx.serialize true).length ≤ maxSize := by
    intro tx hMem
    have hItem := length_writeVector_ge_item (NetMessageTransaction.serialize true) hMem
    omega
  have hCount : block.vtx.length ≤ (writeVector (NetMessageTransaction.serialize true) block.vtx).length := by
    apply length_writeVector_ge_count
    intro tx _
    rw [NetMessageTransaction.serialize, List.length_append, length_writeLE]
    omega
  exact ⟨hTypes.1.1, hTypes.1.2, by omega, fun tx hMem => (hTypes.2 tx hMem).encodable (hTx tx hMem)⟩

theorem Encodable.reads_recognisable (hEncodable : block.Encodable) (hRecognisable : block.Recognisable) :
    Reads (Block.unserialize stale true false) block.serialize block := by
  refine (BlockHeader.reads hEncodable.low hEncodable.high false).bind ?_
  refine (reads_vector_self hEncodable.count ?_).map
  intro tx hTx
  exact (hEncodable.vtx tx hTx).reads_recognisable (hRecognisable tx hTx)

theorem Encodable.getBlock_putBlock (hEncodable : block.Encodable) (hRecognisable : block.Recognisable)
    (hBound : block.serialize.length < 2 ^ 32) : getBlock stale block.putBlock = .ok block := by
  have hReads : Reads (Block.unserialize stale true false) block.serialize block :=
    hEncodable.reads_recognisable hRecognisable
  rw [getBlock, putBlock, hReads.run_all hBound]
  rfl

theorem recognisable_of_inputs (hInputs : ∀ tx ∈ block.vtx, tx.vin ≠ []) : block.Recognisable := by
  intro tx hTx hNil
  exact absurd hNil (hInputs tx hTx)

/-- The header comes first, so it is right whatever becomes of the transactions. -/
theorem toBlockHeader_getBlock {returned : Block} (hVersion : block.FitsVersion)
    (hReturned : getBlock stale block.putBlock = .ok returned) : returned.toBlockHeader = block.toBlockHeader := by
  have hHeader : Reads (BlockHeader.unserialize stale false false) block.toBlockHeader.serialize block.toBlockHeader :=
    BlockHeader.reads hVersion.1 hVersion.2 false
  rw [getBlock] at hReturned
  cases hRead : Block.unserialize stale true false ⟨block.putBlock, 0, false⟩ with
  | error fault =>
    rw [hRead] at hReturned
    cases hReturned
  | ok result =>
    obtain ⟨found, left⟩ := result
    rw [hRead] at hReturned
    cases hReturned
    obtain ⟨header, middle, hFirst, hRest⟩ := Parser.exists_of_bind hRead
    obtain ⟨vtx, last, -, hPure⟩ := Parser.exists_of_bind hRest
    cases hPure
    have hLength : block.toBlockHeader.serialize.length < 2 ^ 32 := by
      rw [BlockHeader.length_serialize]
      decide
    cases hFirst.symm.trans (hHeader.run hLength _)
    rfl

end Block

end BitcoinGpuMiner
