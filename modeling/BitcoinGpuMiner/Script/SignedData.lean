import BitcoinGpuMiner.Model.SignatureHash
import BitcoinGpuMiner.Wire.Separation

/-! # What a signature in a witness covers

`SignatureHash` as `CheckSig` calls it, with the hashes computed ahead. The abstract side is the list of what is
covered: the hash type chooses how much of the inputs and outputs belongs to it.
-/

namespace BitcoinGpuMiner

set_option autoImplicit false

open Foundation SigHash

/-- What `SignatureHash` is asked about. -/
structure SignedInput where
  scriptCode : CScript
  txTo : NetMessageTransaction
  nIn : Fin txTo.vin.length
  nHashType : UInt8
  amount : Int

/-- The parts of a spend that a signature stands for. -/
@[ext]
structure Covered where
  nVersion : Int
  prevouts : Option (List OutPoint)
  sequences : Option (List UInt32)
  previousOutput : OutPoint
  scriptCode : CScript
  amount : Int
  sequence : UInt32
  outputs : Option (List TxOut)
  nLockTime : UInt32
  nHashType : UInt8

namespace SignedInput

variable (signed : SignedInput)

def txIn : TxIn := signed.txTo.vin.get signed.nIn

/-- `SIGHASH_ANYONECANPAY` leaves out the other inputs, `SIGHASH_NONE` the outputs, and `SIGHASH_SINGLE` all outputs but
the one at the position of the input; the last two leave the other inputs' sequence numbers open. -/
def covered : Covered where
  nVersion := signed.txTo.nVersion
  prevouts := if isAnyoneCanPay signed.nHashType then Option.none else some (signed.txTo.vin.map TxIn.previousOutput)
  sequences :=
    if isAnyoneCanPay signed.nHashType || isSingle signed.nHashType || isNone signed.nHashType then Option.none
    else some (signed.txTo.vin.map TxIn.sequence)
  previousOutput := signed.txIn.previousOutput
  scriptCode := signed.scriptCode
  amount := signed.amount
  sequence := signed.txIn.sequence
  outputs :=
    if !isSingle signed.nHashType && !isNone signed.nHashType then some signed.txTo.vout
    else if isSingle signed.nHashType then signed.txTo.vout[signed.nIn.val]?.map fun txOut => [txOut]
    else Option.none
  nLockTime := signed.txTo.nLockTime
  nHashType := signed.nHashType

/-- The numbers fit their types and no length is too large to be written. -/
structure Fits : Prop where
  txTo : signed.txTo.Encodable
  scriptCode : signed.scriptCode.length ≤ maxSize
  low : -2 ^ 63 ≤ signed.amount
  high : signed.amount < 2 ^ 63

/-- The hash that `CheckSig` verifies a signature against. -/
def hash : Option Uint256 :=
  signatureHash signed.scriptCode signed.txTo signed.nIn signed.nHashType signed.amount .witnessV0
    (some (PrecomputedTransactionData.ofTransaction signed.txTo))

end SignedInput

/-- A part that is left out is replaced by zeros. -/
def digest : Option Bytes → Uint256
  | Option.none => Uint256.null
  | some message => Sha256.doubleHash256 message

namespace Covered

variable (covered : Covered)

def prevoutBytes : Option Bytes := covered.prevouts.map (List.flatMap OutPoint.serialize)

def sequenceBytes : Option Bytes := covered.sequences.map (List.flatMap writeUInt32)

def outputBytes : Option Bytes := covered.outputs.map (List.flatMap TxOut.serialize)

def message : Bytes :=
  writeInt 4 covered.nVersion ++ (digest covered.prevoutBytes).bytes ++ (digest covered.sequenceBytes).bytes ++
    covered.previousOutput.serialize ++ writeBytes covered.scriptCode ++ writeInt 8 covered.amount ++
    writeUInt32 covered.sequence ++ (digest covered.outputBytes).bytes ++ writeUInt32 covered.nLockTime ++
    writeLE 4 covered.nHashType.toNat

end Covered

/-- What is hashed for one spend does not collide with what is hashed for the other. -/
structure NoCollision (first second : Covered) : Prop where
  message : Sha256.doubleHash256 first.message = Sha256.doubleHash256 second.message → first.message = second.message
  prevouts : digest first.prevoutBytes = digest second.prevoutBytes → first.prevoutBytes = second.prevoutBytes
  sequences : digest first.sequenceBytes = digest second.sequenceBytes → first.sequenceBytes = second.sequenceBytes
  outputs : digest first.outputBytes = digest second.outputBytes → first.outputBytes = second.outputBytes

theorem SignedInput.getElem?_nIn (signed : SignedInput) : signed.txTo.vin[signed.nIn.val]? = some signed.txIn :=
  List.getElem?_eq_getElem signed.nIn.isLt

/-! ## The message -/

/-- The hashes computed ahead are those that would be computed on the spot. -/
theorem precomputed_eq (txTo : NetMessageTransaction) (part : PrecomputedTransactionData → Uint256)
    (plain : NetMessageTransaction → Uint256)
    (hPart : part ⟨getPrevoutHash txTo, getSequenceHash txTo, getOutputsHash txTo, true⟩ = plain txTo) :
    (((some (PrecomputedTransactionData.ofTransaction txTo)).filter PrecomputedTransactionData.ready).map part).getD
      (plain txTo) = plain txTo := by
  cases hWitness : txTo.hasWitness with
  | true => simpa [PrecomputedTransactionData.ofTransaction, hWitness, Option.filter] using hPart
  | false => simp [PrecomputedTransactionData.ofTransaction, hWitness, Option.filter]

section Message

variable (signed : SignedInput)

theorem digest_prevouts : digest signed.covered.prevoutBytes =
    if isAnyoneCanPay signed.nHashType then Uint256.null else getPrevoutHash signed.txTo := by
  simp only [Covered.prevoutBytes, SignedInput.covered, getPrevoutHash]
  split
  · rfl
  · simp [digest, List.flatMap_map]

theorem digest_sequences : digest signed.covered.sequenceBytes =
    if isAnyoneCanPay signed.nHashType || isSingle signed.nHashType || isNone signed.nHashType then Uint256.null
    else getSequenceHash signed.txTo := by
  simp only [Covered.sequenceBytes, SignedInput.covered, getSequenceHash]
  split
  · rfl
  · simp [digest, List.flatMap_map, writeUInt32]

theorem digest_outputs : digest signed.covered.outputBytes =
    if !isSingle signed.nHashType && !isNone signed.nHashType then getOutputsHash signed.txTo
    else if isSingle signed.nHashType then
      match signed.txTo.vout[signed.nIn.val]? with
      | some txOut => Sha256.doubleHash256 txOut.serialize
      | Option.none => Uint256.null
    else Uint256.null := by
  simp only [Covered.outputBytes, SignedInput.covered, getOutputsHash]
  split
  · rfl
  split
  · cases signed.txTo.vout[signed.nIn.val]? with
    | none => rfl
    | some txOut => simp [digest]
  · rfl

theorem witnessPreimage_eq :
    witnessPreimage signed.scriptCode signed.txTo signed.nIn signed.nHashType signed.amount
      (some (PrecomputedTransactionData.ofTransaction signed.txTo)) signed.txIn = signed.covered.message := by
  rw [Covered.message, digest_prevouts, digest_sequences, digest_outputs]
  simp only [witnessPreimage, precomputed_eq _ (·.hashPrevouts) getPrevoutHash rfl,
    precomputed_eq _ (·.hashSequence) getSequenceHash rfl, precomputed_eq _ (·.hashOutputs) getOutputsHash rfl]
  rfl

theorem SignedInput.hash_eq : signed.hash = some (Sha256.doubleHash256 signed.covered.message) := by
  rw [hash, signatureHash, signed.getElem?_nIn, ← witnessPreimage_eq]
  rfl

end Message

/-! ## What two messages with the same hash agree on -/

theorem SignedInput.Fits.outputs {signed : SignedInput} (hFits : signed.Fits) :
    ∀ vout ∈ signed.covered.outputs, ∀ txOut ∈ vout, txOut.Encodable := by
  intro vout hVout txOut hTxOut
  apply hFits.txTo.vout
  simp only [covered] at hVout
  split at hVout
  · cases hVout
    exact hTxOut
  split at hVout
  · obtain ⟨single, hGet, rfl⟩ := Option.map_eq_some_iff.mp hVout
    rw [List.mem_singleton.mp hTxOut]
    exact List.mem_of_getElem? hGet
  · cases hVout

theorem message_inj {first second : SignedInput} (hFirst : first.Fits) (hSecond : second.Fits)
    (hParts : NoCollision first.covered second.covered) (hEq : first.covered.message = second.covered.message) :
    first.covered = second.covered := by
  have hOpen {α : Type} (list : Option (List α)) : ∀ items ∈ list, ∀ item ∈ items, True := fun _ _ _ _ => trivial
  simp only [Covered.message, List.append_assoc] at hEq
  obtain ⟨hVersion, hEq⟩ := separates_int32 _ _ ⟨hFirst.txTo.low, hFirst.txTo.high⟩
    ⟨hSecond.txTo.low, hSecond.txTo.high⟩ _ _ hEq
  obtain ⟨hPrevouts, hEq⟩ := separates_uint256 _ _ trivial trivial _ _ hEq
  obtain ⟨hSequences, hEq⟩ := separates_uint256 _ _ trivial trivial _ _ hEq
  obtain ⟨hOutPoint, hEq⟩ := separates_outPoint _ _ trivial trivial _ _ hEq
  obtain ⟨hScript, hEq⟩ := separates_bytes _ _ hFirst.scriptCode hSecond.scriptCode _ _ hEq
  obtain ⟨hAmount, hEq⟩ := separates_int64 _ _ ⟨hFirst.low, hFirst.high⟩ ⟨hSecond.low, hSecond.high⟩ _ _ hEq
  obtain ⟨hSequence, hEq⟩ := separates_uint32 _ _ trivial trivial _ _ hEq
  obtain ⟨hOutputs, hEq⟩ := separates_uint256 _ _ trivial trivial _ _ hEq
  obtain ⟨hLockTime, hEq⟩ := separates_uint32 _ _ trivial trivial _ _ hEq
  apply Covered.ext
  case nVersion => exact hVersion
  case prevouts =>
    exact separates_outPoint.eq_of_map_flatMap_eq (fun pt => by simp [OutPoint.serialize, writeLE]) (hOpen _) (hOpen _)
      (hParts.prevouts hPrevouts)
  case sequences =>
    exact separates_uint32.eq_of_map_flatMap_eq (fun sequence => by simp [writeUInt32, writeLE]) (hOpen _) (hOpen _)
      (hParts.sequences hSequences)
  case previousOutput => exact hOutPoint
  case scriptCode => exact hScript
  case amount => exact hAmount
  case sequence => exact hSequence
  case outputs =>
    exact separates_txOut.eq_of_map_flatMap_eq (fun txOut => by simp [TxOut.serialize, writeInt, writeLE]) hFirst.outputs
      hSecond.outputs (hParts.outputs hOutputs)
  case nLockTime => exact hLockTime
  case nHashType => exact eq_of_writeByte_eq hEq

/-- Signatures are checked against the same hash exactly if the spends agree on what the hash type covers, unless a
hash of one spend collides with that of the other. -/
theorem signatureHash_eq_iff_covered_eq {first second : SignedInput} (hFirst : first.Fits) (hSecond : second.Fits)
    (hParts : NoCollision first.covered second.covered) :
    first.hash = second.hash ↔ first.covered = second.covered := by
  rw [first.hash_eq, second.hash_eq]
  constructor
  · intro hEq
    exact message_inj hFirst hSecond hParts (hParts.message (Option.some.inj hEq))
  · intro hEq
    rw [hEq]

def plainInput (amount : Int) : SignedInput where
  scriptCode := [CScript.OP_1]
  txTo := ⟨[⟨⟨Uint256.ofNat 1, 0⟩, [], 0xffffffff, []⟩], [⟨5, [CScript.OP_1]⟩], 1, 0⟩
  nIn := ⟨0, Nat.zero_lt_one⟩
  nHashType := SigHash.all
  amount := amount

theorem signatureHash_eq_iff_covered_eq_amounts :
    NoCollision (plainInput 6).covered (plainInput 7).covered ∧ (plainInput 6).hash ≠ (plainInput 7).hash := by
  have hFits : (plainInput 6).Fits ∧ (plainInput 7).Fits :=
    ⟨⟨by decide, by decide, by decide, by decide⟩, ⟨by decide, by decide, by decide, by decide⟩⟩
  have hParts : NoCollision (plainInput 6).covered (plainInput 7).covered :=
    ⟨by decide +kernel, fun _ => rfl, fun _ => rfl, fun _ => rfl⟩
  refine ⟨hParts, fun hEq => ?_⟩
  have hCovered := (signatureHash_eq_iff_covered_eq hFits.1 hFits.2 hParts).mp hEq
  exact absurd (congrArg Covered.amount hCovered) (by decide)

end BitcoinGpuMiner
