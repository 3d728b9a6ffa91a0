import Mathlib.Tactic.MkIffOfInductiveProp
import BitcoinGpuMiner.Wire.Unserialize

/-! # What was written is read back

The basic and the extended format of a transaction cannot be confused: the basic one starts with the number of
inputs, the extended one with zero, and only a transaction with inputs may be written in the basic one.
-/

namespace BitcoinGpuMiner

open Foundation

set_option autoImplicit false

/-- The numbers fit their types and no length is too large to be read. -/
@[mk_iff]
structure TxIn.Encodable (txIn : TxIn) : Prop where
  scriptSig : txIn.scriptSig.length ≤ maxSize
  stack : txIn.scriptWitness.length ≤ maxSize
  items : ∀ item ∈ txIn.scriptWitness, item.length ≤ maxSize

@[mk_iff]
structure TxOut.Encodable (txOut : TxOut) : Prop where
  low : -2 ^ 63 ≤ txOut.nValue
  high : txOut.nValue < 2 ^ 63
  scriptPubKey : txOut.scriptPubKey.length ≤ maxSize

@[mk_iff]
structure NetMessageTransaction.Encodable (tx : NetMessageTransaction) : Prop where
  low : -2 ^ 31 ≤ tx.nVersion
  high : tx.nVersion < 2 ^ 31
  inputs : tx.vin.length ≤ maxSize
  outputs : tx.vout.length ≤ maxSize
  vin : ∀ txIn ∈ tx.vin, txIn.Encodable
  vout : ∀ txOut ∈ tx.vout, txOut.Encodable

@[mk_iff]
structure Block.Encodable (block : Block) : Prop where
  low : -2 ^ 31 ≤ block.nVersion
  high : block.nVersion < 2 ^ 31
  count : block.vtx.length ≤ maxSize
  vtx : ∀ tx ∈ block.vtx, tx.Encodable

instance (txIn : TxIn) : Decidable txIn.Encodable := decidable_of_iff' _ (TxIn.encodable_iff txIn)

instance (txOut : TxOut) : Decidable txOut.Encodable := decidable_of_iff' _ (TxOut.encodable_iff txOut)

instance (tx : NetMessageTransaction) : Decidable tx.Encodable :=
  decidable_of_iff' _ (NetMessageTransaction.encodable_iff tx)

instance (block : Block) : Decidable block.Encodable := decidable_of_iff' _ (Block.encodable_iff block)

def TxIn.stripped (txIn : TxIn) : TxIn := { txIn with scriptWitness := [] }

def NetMessageTransaction.stripped (tx : NetMessageTransaction) : NetMessageTransaction :=
  { tx with vin := tx.vin.map TxIn.stripped }

section Parts

variable {stale : Nat → UInt8}

theorem OutPoint.reads (pt : OutPoint) : Reads (OutPoint.unserialize stale) pt.serialize pt :=
  (reads_uint256 pt.hashTransaction).bind (reads_uint32 pt.outPutIdx).map

theorem TxIn.reads {txIn : TxIn} (hScript : txIn.scriptSig.length ≤ maxSize) :
    Reads (TxIn.unserialize stale) txIn.serialize txIn.stripped := by
  rw [TxIn.serialize, List.append_assoc]
  exact txIn.previousOutput.reads.bind ((reads_bytes hScript).bind (reads_uint32 txIn.sequence).map)

theorem TxOut.reads {txOut : TxOut} (hEncodable : txOut.Encodable) :
    Reads (TxOut.unserialize stale) txOut.serialize txOut := by
  have hLow := hEncodable.low
  have hHigh := hEncodable.high
  have hValue : Reads (readInt stale 8) (writeInt 8 txOut.nValue) txOut.nValue := reads_int (by omega) (by omega)
  exact hValue.bind (reads_bytes hEncodable.scriptPubKey).map

theorem TxIn.writeVector_stripped (vin : List TxIn) :
    writeVector TxIn.serialize (vin.map TxIn.stripped) = writeVector TxIn.serialize vin := by
  rw [writeVector, writeVector, List.length_map, List.flatMap_map]
  rfl

theorem TxIn.reads_vector {vin : List TxIn} (hSize : vin.length ≤ maxSize)
    (hScripts : ∀ txIn ∈ vin, txIn.scriptSig.length ≤ maxSize) :
    Reads (readVector stale (TxIn.unserialize stale)) (writeVector TxIn.serialize vin) (vin.map TxIn.stripped) :=
  BitcoinGpuMiner.reads_vector hSize fun txIn hTxIn => TxIn.reads (hScripts txIn hTxIn)

end Parts

namespace NetMessageTransaction

variable {stale : Nat → UInt8} {tx : NetMessageTransaction}

theorem Encodable.reads_vin (hEncodable : tx.Encodable) :
    Reads (readVector stale (TxIn.unserialize stale)) (writeVector TxIn.serialize tx.vin) tx.stripped.vin :=
  TxIn.reads_vector hEncodable.inputs fun txIn hTxIn => (hEncodable.vin txIn hTxIn).scriptSig

theorem Encodable.reads_vout (hEncodable : tx.Encodable) :
    Reads (readVector stale (TxOut.unserialize stale)) (writeVector TxOut.serialize tx.vout) tx.vout :=
  reads_vector_self hEncodable.outputs fun txOut hTxOut => TxOut.reads (hEncodable.vout txOut hTxOut)

/-- The basic format, unless it starts like the extended one. -/
theorem Encodable.reads_basic (hEncodable : tx.Encodable) {allowWitness : Bool}
    (hBasic : (tx.vin.isEmpty && allowWitness) = false) :
    Reads (readInputs stale allowWitness) (writeVector TxIn.serialize tx.vin ++ writeVector TxOut.serialize tx.vout)
      ⟨0, tx.stripped.vin, tx.vout⟩ := by
  refine hEncodable.reads_vin.bind ?_
  have hBranch : (tx.stripped.vin.isEmpty && allowWitness) = false := by
    rw [stripped, List.isEmpty_map]
    exact hBasic
  rw [if_neg (Bool.eq_false_iff.mp hBranch)]
  exact hEncodable.reads_vout.map

theorem Encodable.reads_extended (hEncodable : tx.Encodable) :
    Reads (readInputs stale true)
      ([0, 1] ++ writeVector TxIn.serialize tx.vin ++ writeVector TxOut.serialize tx.vout)
      ⟨1, tx.stripped.vin, tx.vout⟩ := by
  have hNone : Reads (readVector stale (TxIn.unserialize stale)) (writeVector TxIn.serialize []) [] :=
    TxIn.reads_vector (Nat.zero_le _) (fun _ hNil => absurd hNil List.not_mem_nil)
  have hFlags : Reads (readData stale 1) (writeLE 1 1) 1 := reads_data (by decide)
  have hBytes : [0, 1] ++ writeVector TxIn.serialize tx.vin ++ writeVector TxOut.serialize tx.vout =
      writeVector TxIn.serialize [] ++ (writeLE 1 1 ++
        (writeVector TxIn.serialize tx.vin ++ writeVector TxOut.serialize tx.vout)) := rfl
  rw [hBytes]
  refine hNone.bind ?_
  rw [if_pos (by rfl : (([] : List TxIn).isEmpty && true) = true)]
  refine hFlags.bind ?_
  rw [if_pos Nat.one_ne_zero]
  exact hEncodable.reads_vin.bind hEncodable.reads_vout.map

theorem reads_noWitnesses (allowWitness : Bool) {inputs : Inputs} (hFlags : inputs.flags = 0) :
    Reads (readWitnesses stale allowWitness inputs) [] inputs := by
  have hEven : ¬ (decide (inputs.flags &&& 1 ≠ 0) && allowWitness) = true := by
    rw [hFlags]
    cases allowWitness <;> decide
  rw [readWitnesses, if_neg hEven]
  exact Reads.ret inputs

theorem Encodable.reads_witnesses (hEncodable : tx.Encodable) :
    Reads (readWitnesses stale true ⟨1, tx.stripped.vin, tx.vout⟩)
      (tx.vin.flatMap fun txIn => writeVector writeBytes txIn.scriptWitness) ⟨0, tx.vin, tx.vout⟩ := by
  have hEach : Reads (Parser.each (readWitness stale) tx.stripped.vin)
      (tx.vin.flatMap fun txIn => writeVector writeBytes txIn.scriptWitness) (tx.vin.map fun txIn => txIn) := by
    apply Reads.each
    intro txIn hTxIn
    have hTxIn := hEncodable.vin txIn hTxIn
    have hStack : Reads (readVector stale (readBytes stale)) (writeVector writeBytes txIn.scriptWitness)
        txIn.scriptWitness := reads_vector_self hTxIn.stack fun item hItem => reads_bytes (hTxIn.items item hItem)
    exact hStack.map
  rw [List.map_id'] at hEach
  have hOdd : (decide (1 &&& 1 ≠ 0) && true) = true := by decide
  rw [readWitnesses]
  dsimp only
  rw [if_pos hOdd]
  exact hEach.map

/-- Everything before the lock time. -/
def readBody (stale : Nat → UInt8) (allowWitness : Bool) : Reader (Int × Inputs) := do
  let nVersion ← readInt stale 4
  let inputs ← readInputs stale allowWitness
  let inputs ← readWitnesses stale allowWitness inputs
  pure (nVersion, inputs)

theorem unserialize_eq_readBody (allowWitness : Bool) : unserialize stale allowWitness =
    readBody stale allowWitness >>= fun body => readUInt32 stale >>= fun nLockTime =>
      pure ⟨body.2.cleared.vin, body.2.cleared.vout, body.1, nLockTime⟩ := by
  simp only [unserialize, unserializeOver, readBody, readInputs, bind_assoc, pure_bind]

theorem Encodable.reads_body (hEncodable : tx.Encodable) {allowWitness : Bool} {first second : Bytes} {inputs read : Inputs}
    (hInputs : Reads (readInputs stale allowWitness) first inputs)
    (hWitnesses : Reads (readWitnesses stale allowWitness inputs) second read) :
    Reads (readBody stale allowWitness) (writeInt 4 tx.nVersion ++ (first ++ second)) (tx.nVersion, read) := by
  have hLow := hEncodable.low
  have hHigh := hEncodable.high
  have hVersion : Reads (readInt stale 4) (writeInt 4 tx.nVersion) tx.nVersion := reads_int (by omega) (by omega)
  exact hVersion.bind (hInputs.bind hWitnesses.map)

theorem reads_of_body {allowWitness : Bool} {body : Bytes} {nVersion : Int} {vin : List TxIn} {vout : List TxOut}
    (hBody : Reads (readBody stale allowWitness) body (nVersion, ⟨0, vin, vout⟩)) (nLockTime : UInt32) :
    Reads (unserialize stale allowWitness) (body ++ writeLE 4 nLockTime.toNat) ⟨vin, vout, nVersion, nLockTime⟩ := by
  rw [unserialize_eq_readBody]
  exact hBody.bind (reads_uint32 nLockTime).map

theorem stripped_of_noWitness (hNone : tx.hasWitness = false) : tx.stripped = tx := by
  have hSame : ∀ txIn ∈ tx.vin, txIn.stripped = txIn := by
    intro txIn hTxIn
    have hEmpty := List.any_eq_false.mp hNone txIn hTxIn
    rw [Bool.not_eq_true, Bool.not_eq_false', List.isEmpty_iff] at hEmpty
    rw [TxIn.stripped, ← hEmpty]
  rw [stripped, List.map_congr_left hSame, List.map_id']

def basicBody (tx : NetMessageTransaction) : Bytes :=
  writeInt 4 tx.nVersion ++ ((writeVector TxIn.serialize tx.vin ++ writeVector TxOut.serialize tx.vout) ++ [])

def extendedBody (tx : NetMessageTransaction) : Bytes :=
  writeInt 4 tx.nVersion ++ (([0, 1] ++ writeVector TxIn.serialize tx.vin ++ writeVector TxOut.serialize tx.vout) ++
    tx.vin.flatMap fun txIn => writeVector writeBytes txIn.scriptWitness)

/-- The extended format, which may be read even if there is no witness in it. -/
def extendedForm (tx : NetMessageTransaction) : Bytes := tx.extendedBody ++ writeLE 4 tx.nLockTime.toNat

theorem serialize_false (tx : NetMessageTransaction) :
    tx.serialize false = tx.basicBody ++ writeLE 4 tx.nLockTime.toNat := by
  simp only [serialize, basicBody, Bool.and_false, Bool.false_eq_true, if_false, List.append_nil, List.append_assoc]

theorem serialize_of_noWitness (hWitness : tx.hasWitness = false) : tx.serialize true = tx.serialize false := by
  simp only [serialize, hWitness, Bool.false_and]

theorem serialize_of_hasWitness (hWitness : tx.hasWitness = true) : tx.serialize true = tx.extendedForm := by
  simp only [serialize, extendedForm, extendedBody, hWitness, Bool.and_self, if_true, List.append_assoc]

theorem Encodable.reads_basicBody (hEncodable : tx.Encodable) {allowWitness : Bool}
    (hBasic : (tx.vin.isEmpty && allowWitness) = false) :
    Reads (readBody stale allowWitness) tx.basicBody (tx.nVersion, ⟨0, tx.stripped.vin, tx.vout⟩) :=
  hEncodable.reads_body (hEncodable.reads_basic hBasic) (reads_noWitnesses allowWitness rfl)

theorem Encodable.reads_extendedBody (hEncodable : tx.Encodable) :
    Reads (readBody stale true) tx.extendedBody (tx.nVersion, ⟨0, tx.vin, tx.vout⟩) :=
  hEncodable.reads_body hEncodable.reads_extended hEncodable.reads_witnesses

theorem Encodable.reads_false (hEncodable : tx.Encodable) :
    Reads (unserialize stale false) (tx.serialize false) tx.stripped := by
  rw [serialize_false]
  exact reads_of_body (hEncodable.reads_basicBody (Bool.and_false _)) tx.nLockTime

theorem Encodable.reads_extendedForm (hEncodable : tx.Encodable) : Reads (unserialize stale true) tx.extendedForm tx :=
  reads_of_body hEncodable.reads_extendedBody tx.nLockTime

/-- What is written is what `readBody` reads, and the lock time. -/
theorem Encodable.exists_body (hEncodable : tx.Encodable) (hVin : tx.vin ≠ []) (stale : Nat → UInt8) :
    ∃ body, tx.serialize true = body ++ writeLE 4 tx.nLockTime.toNat ∧
      Reads (readBody stale true) body (tx.nVersion, ⟨0, tx.vin, tx.vout⟩) := by
  cases hWitness : tx.hasWitness with
  | true => exact ⟨tx.extendedBody, serialize_of_hasWitness hWitness, hEncodable.reads_extendedBody⟩
  | false =>
    have hBasic : (tx.vin.isEmpty && true) = false := by
      rw [Bool.and_true, List.isEmpty_eq_false_iff]
      exact hVin
    have hReads : Reads (readBody stale true) tx.basicBody _ := hEncodable.reads_basicBody hBasic
    rw [stripped_of_noWitness hWitness] at hReads
    exact ⟨tx.basicBody, (serialize_of_noWitness hWitness).trans tx.serialize_false, hReads⟩

theorem Encodable.reads_true (hEncodable : tx.Encodable) (hVin : tx.vin ≠ []) :
    Reads (unserialize stale true) (tx.serialize true) tx := by
  obtain ⟨body, hWrite, hBody⟩ := hEncodable.exists_body hVin stale
  rw [hWrite]
  exact reads_of_body hBody tx.nLockTime

theorem getHash_stripped (tx : NetMessageTransaction) : tx.stripped.getHash = tx.getHash := by
  have hWrite : tx.stripped.serialize false = tx.serialize false := by
    simp only [serialize, Bool.and_false, Bool.false_eq_true, if_false, List.append_nil, stripped,
      TxIn.writeVector_stripped]
  rw [getHash, hWrite, getHash]

end NetMessageTransaction

section Blocks

variable {stale : Nat → UInt8}

theorem BlockHeader.reads_counted {header : BlockHeader} (hLow : -2 ^ 31 ≤ header.nVersion)
    (hHigh : header.nVersion < 2 ^ 31) {isHeader getHash : Bool} {w : Bytes} {nTxCount : Nat}
    (hCount : Reads (readTxCount stale isHeader getHash) w nTxCount) :
    Reads (BlockHeader.unserialize stale isHeader getHash) (header.serialize ++ w) header := by
  have hVersion : Reads (readInt stale 4) (writeInt 4 header.nVersion) header.nVersion :=
    reads_int (by omega) (by omega)
  simp only [serialize, List.append_assoc]
  exact hVersion.bind ((reads_uint256 _).bind ((reads_uint256 _).bind ((reads_uint32 _).bind ((reads_uint32 _).bind
    ((reads_uint32 _).bind hCount.map)))))

theorem BlockHeader.reads {header : BlockHeader} (hLow : -2 ^ 31 ≤ header.nVersion) (hHigh : header.nVersion < 2 ^ 31)
    (getHash : Bool) : Reads (BlockHeader.unserialize stale false getHash) header.serialize header := by
  have hNone : Reads (readTxCount stale false getHash) [] 0 := Reads.ret 0
  have hReads := BlockHeader.reads_counted hLow hHigh hNone
  rw [List.append_nil] at hReads
  exact hReads

theorem Block.Encodable.reads {block : Block} (hEncodable : block.Encodable) (hInputs : ∀ tx ∈ block.vtx, tx.vin ≠ []) :
    Reads (Block.unserialize stale true false) block.serialize block := by
  refine (BlockHeader.reads hEncodable.low hEncodable.high false).bind ?_
  refine (reads_vector_self hEncodable.count ?_).map
  intro tx hTx
  exact (hEncodable.vtx tx hTx).reads_true (hInputs tx hTx)

end Blocks

/-- A stream of version zero gives back the block that was written to it and stands where its bytes end. -/
def Block.ReadsBack (stale : Nat → UInt8) (tail : Bytes) (block : Block) : Prop :=
  ∃ pos : UInt32, pos.toNat = block.serialize.length ∧
    Block.unserialize stale true false ⟨block.serialize ++ tail, 0, false⟩ =
      .ok (block, ⟨block.serialize ++ tail, pos, false⟩)

/-- A stream without witnesses does the same for a transaction, up to its witnesses. -/
def NetMessageTransaction.ReadsBack (stale : Nat → UInt8) (tail : Bytes) (tx : NetMessageTransaction) : Prop :=
  ∃ (decoded : NetMessageTransaction) (pos : UInt32), pos.toNat = (tx.serialize false).length ∧
    NetMessageTransaction.unserialize stale false ⟨tx.serialize false ++ tail, 0, false⟩ =
      .ok (decoded, ⟨tx.serialize false ++ tail, pos, false⟩) ∧
    decoded.stripped = tx.stripped ∧ decoded.getHash = tx.getHash

section Positions

variable {stale : Nat → UInt8} {tail : Bytes}

theorem toNat_ofNat_length {data : Bytes} (hBound : data.length < 2 ^ 32) :
    (UInt32.ofNat data.length).toNat = data.length :=
  UInt32.toNat_ofNat_of_lt' hBound

theorem Block.readsBack_iff {block : Block} (hEncodable : block.Encodable) (hInputs : ∀ tx ∈ block.vtx, tx.vin ≠ []) :
    block.ReadsBack stale tail ↔ block.serialize.length < 2 ^ 32 := by
  constructor
  · rintro ⟨pos, hPos, -⟩
    rw [← hPos]
    exact pos.toNat_lt
  · intro hBound
    exact ⟨_, toNat_ofNat_length hBound, (hEncodable.reads hInputs).run hBound tail⟩

theorem NetMessageTransaction.readsBack_iff {tx : NetMessageTransaction} (hEncodable : tx.Encodable) :
    tx.ReadsBack stale tail ↔ (tx.serialize false).length < 2 ^ 32 := by
  constructor
  · rintro ⟨decoded, pos, hPos, -⟩
    rw [← hPos]
    exact pos.toNat_lt
  · intro hBound
    refine ⟨tx.stripped, _, toNat_ofNat_length hBound, hEncodable.reads_false.run hBound tail, ?_, tx.getHash_stripped⟩
    rw [stripped, stripped, List.map_map]
    rfl

end Positions

/-- What was written is read back exactly when a position of 32 bits reaches its end. -/
theorem readsBack_iff_length (stale : Nat → UInt8) (tail : Bytes) :
    (∀ block : Block, block.Encodable → (∀ tx ∈ block.vtx, tx.vin ≠ []) →
      (block.ReadsBack stale tail ↔ block.serialize.length < 2 ^ 32)) ∧
    ∀ tx : NetMessageTransaction, tx.Encodable → (tx.ReadsBack stale tail ↔ (tx.serialize false).length < 2 ^ 32) := by
  constructor
  · intro block hEncodable hInputs
    exact Block.readsBack_iff hEncodable hInputs
  · intro tx hEncodable
    exact NetMessageTransaction.readsBack_iff hEncodable

/-- A block with a witness, and a transaction without inputs. -/
theorem readsBack_iff_length_witness : ∃ (block : Block) (tx : NetMessageTransaction),
    (block.vtx.map NetMessageTransaction.hasWitness = [true] ∧ tx.vin = []) ∧
      block.ReadsBack (fun _ => 0) [7] ∧ tx.ReadsBack (fun _ => 0) [7] := by
  let spend : NetMessageTransaction := ⟨[⟨OutPoint.null, [1], 2, [[3], []]⟩], [⟨-1, [4]⟩], -5, 6⟩
  let empty : NetMessageTransaction := ⟨[], [], 1, 0⟩
  obtain ⟨hBlocks, hTransactions⟩ := readsBack_iff_length (fun _ => 0) [7]
  refine ⟨⟨Block.null.toBlockHeader, [spend]⟩, empty, by decide, ?_, ?_⟩
  · exact (hBlocks _ (by decide) (by decide)).mpr (by decide +kernel)
  · exact (hTransactions _ (by decide)).mpr (by decide)

section Heavy

def lightTransaction : NetMessageTransaction := ⟨[⟨OutPoint.null, [], 0, []⟩], [], 1, 0⟩

/-- A transaction with the given script in each of its outputs. -/
def heavyTransaction (script : Bytes) (count : Nat) : NetMessageTransaction :=
  { lightTransaction with vout := List.replicate count ⟨0, script⟩ }

theorem encodable_heavyTransaction {script : Bytes} (hScript : script.length ≤ maxSize) {count : Nat}
    (hCount : count ≤ maxSize) : (heavyTransaction script count).Encodable := by
  have hLight : lightTransaction.Encodable := by decide
  have hEmpty : (⟨0, []⟩ : TxOut).Encodable := by decide
  refine ⟨hLight.low, hLight.high, hLight.inputs, ?_, hLight.vin, ?_⟩
  · rw [heavyTransaction, List.length_replicate]
    exact hCount
  · intro txOut hTxOut
    cases List.eq_of_mem_replicate hTxOut
    exact ⟨hEmpty.low, hEmpty.high, hScript⟩

theorem length_heavyTransaction (script : Bytes) (count : Nat) (allowWitness : Bool) :
    count * script.length ≤ ((heavyTransaction script count).serialize allowWitness).length := by
  have hOutput : script.length ≤ (TxOut.serialize ⟨0, script⟩).length := by
    rw [TxOut.serialize, writeBytes, List.length_append, List.length_append, ← Nat.add_assoc]
    exact Nat.le_add_left _ _
  have hOutputs : count * script.length ≤ (writeVector TxOut.serialize (heavyTransaction script count).vout).length := by
    rw [writeVector, List.length_append, List.length_flatMap, heavyTransaction, List.map_replicate, List.sum_replicate_nat]
    exact Nat.le_add_left_of_le (Nat.mul_le_mul_left count hOutput)
  refine Nat.le_trans hOutputs ?_
  simp only [NetMessageTransaction.serialize, List.length_append]
  omega

theorem exists_not_readsBack : ∃ block : Block, (block.Encodable ∧ ∀ tx ∈ block.vtx, tx.vin ≠ []) ∧
    ∀ (stale : Nat → UInt8) (tail : Bytes), ¬ block.ReadsBack stale tail := by
  obtain ⟨script, hScript⟩ : ∃ script : Bytes, script.length = maxSize := ⟨List.replicate maxSize 0, List.length_replicate⟩
  have hMax : maxSize = 0x02000000 := rfl
  have hEncodable : (⟨Block.null.toBlockHeader, [heavyTransaction script 129]⟩ : Block).Encodable := by
    have hNull : (⟨Block.null.toBlockHeader, []⟩ : Block).Encodable := by decide
    refine ⟨hNull.low, hNull.high, by rw [List.length_singleton]; decide, ?_⟩
    intro tx hTx
    cases List.mem_singleton.mp hTx
    exact encodable_heavyTransaction (Nat.le_of_eq hScript) (by decide)
  have hInputs : ∀ tx ∈ [heavyTransaction script 129], tx.vin ≠ [] := by
    intro tx hTx
    cases List.mem_singleton.mp hTx
    exact List.cons_ne_nil _ _
  refine ⟨_, ⟨hEncodable, hInputs⟩, ?_⟩
  intro stale tail hReads
  have hBound := (Block.readsBack_iff hEncodable hInputs).mp hReads
  have hHeavy := length_heavyTransaction script 129 true
  rw [Block.serialize, List.length_append, writeVector, List.length_append, List.flatMap_singleton] at hBound
  omega

end Heavy

end BitcoinGpuMiner
