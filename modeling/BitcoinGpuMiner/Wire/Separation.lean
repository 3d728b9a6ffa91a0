import BitcoinGpuMiner.Foundation.PrefixFree
import BitcoinGpuMiner.Wire.RoundTrip

/-! # What is written ends by itself

Numbers, hashes, scripts, inputs and outputs are told from what follows them, and so is a transaction in the basic
format.
-/

namespace BitcoinGpuMiner

set_option autoImplicit false

open Foundation

def writeUInt32 (n : UInt32) : Bytes := writeLE 4 n.toNat

/-- No uninitialised bytes are looked at when all reads succeed. -/
def noStale : Nat → UInt8 := fun _ => 0

theorem separates_int32 : Separates (fun n : Int => -2 ^ 31 ≤ n ∧ n < 2 ^ 31) (writeInt 4) := by
  refine .of_reads (p := readInt noStale 4) ?_ fun n _ => by rw [length_writeInt]; decide
  rintro n ⟨hLow, hHigh⟩
  exact reads_int (by omega) (by omega)

theorem separates_int64 : Separates (fun n : Int => -2 ^ 63 ≤ n ∧ n < 2 ^ 63) (writeInt 8) := by
  refine .of_reads (p := readInt noStale 8) ?_ fun n _ => by rw [length_writeInt]; decide
  rintro n ⟨hLow, hHigh⟩
  exact reads_int (by omega) (by omega)

theorem separates_uint256 : Separates (fun _ : Uint256 => True) Uint256.bytes :=
  .of_reads (fun a _ => reads_uint256 a) fun a _ => by rw [Uint256.length_bytes]; decide

theorem separates_data : Separates (fun n : Nat => n < 256 ^ 4) (writeLE 4) :=
  .of_reads (p := readData noStale 4) (fun _ hFits => reads_data hFits) fun n _ => by rw [length_writeLE]; decide

theorem eq_of_writeByte_eq {a b : UInt8} (hEq : writeLE 4 a.toNat = writeLE 4 b.toNat) : a = b := by
  have hFits : ∀ n : UInt8, n.toNat < 256 ^ 4 := fun n => Nat.lt_trans n.toNat_lt (by decide)
  exact UInt8.toNat_inj.mp (separates_data.eq_of_write_eq (hFits a) (hFits b) hEq)

theorem separates_uint32 : Separates (fun _ : UInt32 => True) writeUInt32 :=
  .of_reads (p := readUInt32 noStale) (fun n _ => reads_uint32 n)
    fun n _ => by rw [writeUInt32, length_writeLE]; decide

theorem separates_outPoint : Separates (fun _ : OutPoint => True) OutPoint.serialize :=
  .of_reads (p := OutPoint.unserialize noStale) (fun pt _ => pt.reads) fun pt _ => by
    rw [OutPoint.serialize, List.length_append, Uint256.length_bytes, length_writeLE]
    decide

theorem length_writeBytes_lt {data : Bytes} (hSize : data.length ≤ maxSize) : (writeBytes data).length < 2 ^ 31 := by
  have hPrefix := length_writeCompactSize_le data.length
  rw [length_writeBytes]
  rw [maxSize] at hSize
  omega

theorem separates_bytes : Separates (fun data : Bytes => data.length ≤ maxSize) writeBytes := by
  refine .of_reads (p := readBytes noStale) (fun _ hSize => reads_bytes hSize) fun data hSize => ?_
  have hShort := length_writeBytes_lt hSize
  omega

theorem separates_txOut : Separates TxOut.Encodable TxOut.serialize := by
  refine .of_reads (p := TxOut.unserialize noStale) (fun _ hEncodable => TxOut.reads hEncodable) fun txOut hEncodable => ?_
  have hShort := length_writeBytes_lt hEncodable.scriptPubKey
  rw [TxOut.serialize, List.length_append, length_writeInt]
  omega

theorem separates_txIn :
    Separates (fun txIn : TxIn => txIn.scriptSig.length ≤ maxSize ∧ txIn.scriptWitness = []) TxIn.serialize := by
  refine .of_reads (p := TxIn.unserialize noStale) ?_ fun txIn hTxIn => ?_
  · rintro ⟨previousOutput, scriptSig, sequence, _⟩ ⟨hSize, rfl⟩
    exact TxIn.reads hSize
  · have hShort := length_writeBytes_lt hTxIn.1
    rw [TxIn.serialize, List.length_append, List.length_append, OutPoint.serialize, List.length_append,
      Uint256.length_bytes, length_writeLE, length_writeLE]
    omega

theorem separates_compactSize : Separates (fun n : Nat => n ≤ maxSize) writeCompactSize := by
  refine .of_reads (p := readCompactSize noStale) (fun _ hSize => reads_compactSize hSize) fun n _ => ?_
  have hShort := length_writeCompactSize_le n
  omega

theorem separates_vector {α : Type} {good : α → Prop} {write : α → Bytes} (hItems : Separates good write) :
    Separates (fun items : List α => items.length ≤ maxSize ∧ ∀ item ∈ items, good item) (writeVector write) := by
  intro items items' hGood hGood' x y hEq
  rw [writeVector, writeVector, List.append_assoc, List.append_assoc] at hEq
  obtain ⟨hLength, hRest⟩ := separates_compactSize _ _ hGood.1 hGood'.1 _ _ hEq
  exact hItems.flatMap_append_inj hLength hGood.2 hGood'.2 hRest

/-- The basic format knows of no witnesses. -/
theorem separates_transaction : Separates
    (fun tx : NetMessageTransaction => tx.Encodable ∧ ∀ txIn ∈ tx.vin, txIn.scriptWitness = [])
    (NetMessageTransaction.serialize false) := by
  rintro ⟨vin, vout, nVersion, nLockTime⟩ ⟨vin', vout', nVersion', nLockTime'⟩ ⟨hFits, hNone⟩ ⟨hFits', hNone'⟩ x y hEq
  rw [NetMessageTransaction.serialize_false, NetMessageTransaction.serialize_false] at hEq
  simp only [NetMessageTransaction.basicBody, List.append_assoc, List.append_nil] at hEq
  obtain ⟨hVersion, hInputs⟩ := separates_int32 _ _ ⟨hFits.low, hFits.high⟩ ⟨hFits'.low, hFits'.high⟩ _ _ hEq
  obtain ⟨hVin, hOutputs⟩ := separates_vector separates_txIn _ _
    ⟨hFits.inputs, fun txIn hTxIn => ⟨(hFits.vin txIn hTxIn).scriptSig, hNone txIn hTxIn⟩⟩
    ⟨hFits'.inputs, fun txIn hTxIn => ⟨(hFits'.vin txIn hTxIn).scriptSig, hNone' txIn hTxIn⟩⟩ _ _ hInputs
  obtain ⟨hVout, hLast⟩ := separates_vector separates_txOut _ _ ⟨hFits.outputs, hFits.vout⟩
    ⟨hFits'.outputs, hFits'.vout⟩ _ _ hOutputs
  obtain ⟨hLockTime, hTail⟩ := separates_uint32 _ _ trivial trivial _ _ hLast
  cases hVersion
  cases hVin
  cases hVout
  cases hLockTime
  exact ⟨rfl, hTail⟩

/-- The basic format shows a coinbase, whatever the other fields are. -/
theorem isCoinBase_eq_of_serialize_eq {tx tx' : NetMessageTransaction} (hVin : tx.vin.length ≤ maxSize)
    (hVin' : tx'.vin.length ≤ maxSize) (hEq : tx.serialize false = tx'.serialize false) :
    tx.isCoinBase = tx'.isCoinBase := by
  obtain ⟨vin, vout, nVersion, nLockTime⟩ := tx
  obtain ⟨vin', vout', nVersion', nLockTime'⟩ := tx'
  rw [NetMessageTransaction.serialize_false, NetMessageTransaction.serialize_false] at hEq
  simp only [NetMessageTransaction.basicBody, writeVector, List.append_assoc, List.append_nil] at hEq
  obtain ⟨-, hInputs⟩ := List.append_inj hEq (by rw [length_writeInt, length_writeInt])
  obtain ⟨hLength, hItems⟩ := separates_compactSize _ _ hVin hVin' _ _ hInputs
  dsimp only at hLength
  rcases vin with - | ⟨txIn, - | ⟨second, rest⟩⟩ <;> rcases vin' with - | ⟨txIn', - | ⟨second', rest'⟩⟩ <;>
    try (simp at hLength; done)
  · rfl
  · simp only [List.flatMap_singleton, TxIn.serialize, List.append_assoc] at hItems
    obtain ⟨hPrevious, -⟩ := separates_outPoint _ _ trivial trivial _ _ hItems
    exact congrArg OutPoint.isNull hPrevious
  · rfl

end BitcoinGpuMiner
