import BitcoinGpuMiner.Encoding.ScriptOps
import BitcoinGpuMiner.Model.Interpreter

/-! # What a signature signs

`SignatureHash` in its two versions, the hashes computed ahead for transactions with witnesses, and the checker that
the interpreter is given for one input of a transaction.
-/

namespace BitcoinGpuMiner

set_option autoImplicit false

namespace SigHash

def all : UInt8 := 1

def none : UInt8 := 2

def single : UInt8 := 3

def anyoneCanPay : UInt8 := 0x80

def isAnyoneCanPay (nHashType : UInt8) : Bool := nHashType &&& anyoneCanPay != 0

def isSingle (nHashType : UInt8) : Bool := nHashType &&& 0x1f == single

def isNone (nHashType : UInt8) : Bool := nHashType &&& 0x1f == none

end SigHash

open SigHash

/-- `TxOut()`. -/
def TxOut.null : TxOut := ⟨-1, []⟩

namespace SignatureSerializer

/-- The first loop of `SerializeScriptCode`. -/
def countSeparators : Nat → CScript → Nat → Nat
  | 0, _, n => n
  | fuel + 1, it, n =>
    match CScript.getOp it with
    | .error _ => n
    | .ok (opcode, _, rest) => countSeparators fuel rest (if opcode = CScript.OP_CODESEPARATOR then n + 1 else n)

/-- The second loop: the bytes between separators. A read that fails leaves `it` where it stopped. -/
def writeSegments : Nat → CScript → CScript → Bytes → Bytes
  | 0, _, _, s => s
  | fuel + 1, itBegin, it, s =>
    match CScript.getOp it with
    | .error stop => s ++ itBegin.take (itBegin.length - stop.length)
    | .ok (opcode, _, rest) =>
      if opcode = CScript.OP_CODESEPARATOR then
        writeSegments fuel rest rest (s ++ itBegin.take (itBegin.length - rest.length - 1))
      else writeSegments fuel itBegin rest s

def serializeScriptCode (scriptCode : CScript) : Bytes :=
  writeCompactSize (scriptCode.length - countSeparators (scriptCode.length + 1) scriptCode 0) ++
    writeSegments (scriptCode.length + 1) scriptCode scriptCode []

section

variable (txTo : NetMessageTransaction) (scriptCode : CScript) (nIn : Nat) (nHashType : UInt8)

def serializeInput (nInput : Nat) : Bytes :=
  let nInput := if isAnyoneCanPay nHashType then nIn else nInput
  match txTo.vin[nInput]? with
  | Option.none => []
  | some txIn =>
    txIn.previousOutput.serialize ++
    (if nInput ≠ nIn then writeBytes [] else serializeScriptCode scriptCode) ++
    (if nInput ≠ nIn ∧ (isSingle nHashType ∨ isNone nHashType) then writeLE 4 0 else writeLE 4 txIn.sequence.toNat)

def serializeOutput (nOutput : Nat) : Bytes :=
  if isSingle nHashType ∧ nOutput ≠ nIn then TxOut.null.serialize
  else match txTo.vout[nOutput]? with
  | Option.none => []
  | some txOut => txOut.serialize

/-- `CTransactionSignatureSerializer::Serialize`. -/
def serialize : Bytes :=
  let nInputs := if isAnyoneCanPay nHashType then 1 else txTo.vin.length
  let nOutputs := if isNone nHashType then 0 else if isSingle nHashType then nIn + 1 else txTo.vout.length
  writeInt 4 txTo.nVersion ++
  writeCompactSize nInputs ++ (List.range nInputs).flatMap (serializeInput txTo scriptCode nIn nHashType) ++
  writeCompactSize nOutputs ++ (List.range nOutputs).flatMap (serializeOutput txTo nIn nHashType) ++
  writeLE 4 txTo.nLockTime.toNat

end

end SignatureSerializer

def getPrevoutHash (txTo : NetMessageTransaction) : Uint256 :=
  Sha256.doubleHash256 (txTo.vin.flatMap fun txin => txin.previousOutput.serialize)

def getSequenceHash (txTo : NetMessageTransaction) : Uint256 :=
  Sha256.doubleHash256 (txTo.vin.flatMap fun txin => writeLE 4 txin.sequence.toNat)

def getOutputsHash (txTo : NetMessageTransaction) : Uint256 :=
  Sha256.doubleHash256 (txTo.vout.flatMap TxOut.serialize)

structure PrecomputedTransactionData where
  hashPrevouts : Uint256
  hashSequence : Uint256
  hashOutputs : Uint256
  ready : Bool

/-- The constructor: transactions without a witness get nothing. -/
def PrecomputedTransactionData.ofTransaction (txTo : NetMessageTransaction) : PrecomputedTransactionData :=
  if txTo.hasWitness then ⟨getPrevoutHash txTo, getSequenceHash txTo, getOutputsHash txTo, true⟩
  else ⟨Uint256.null, Uint256.null, Uint256.null, false⟩

section

variable (scriptCode : CScript) (txTo : NetMessageTransaction) (nIn : Nat) (nHashType : UInt8) (amount : Int)

/-- The message of the witness version; `cache` may be missing. -/
def witnessPreimage (cache : Option PrecomputedTransactionData) (txIn : TxIn) : Bytes :=
  let cache := cache.filter PrecomputedTransactionData.ready
  let hashPrevouts :=
    if isAnyoneCanPay nHashType then Uint256.null else (cache.map (·.hashPrevouts)).getD (getPrevoutHash txTo)
  let hashSequence :=
    if isAnyoneCanPay nHashType || isSingle nHashType || isNone nHashType then Uint256.null
    else (cache.map (·.hashSequence)).getD (getSequenceHash txTo)
  let hashOutputs :=
    if !isSingle nHashType && !isNone nHashType then (cache.map (·.hashOutputs)).getD (getOutputsHash txTo)
    else if isSingle nHashType then
      match txTo.vout[nIn]? with
      | some txOut => Sha256.doubleHash256 txOut.serialize
      | Option.none => Uint256.null
    else Uint256.null
  writeInt 4 txTo.nVersion ++ hashPrevouts.bytes ++ hashSequence.bytes ++ txIn.previousOutput.serialize ++
    writeBytes scriptCode ++ writeInt 8 amount ++ writeLE 4 txIn.sequence.toNat ++ hashOutputs.bytes ++
    writeLE 4 txTo.nLockTime.toNat ++ writeLE 4 nHashType.toNat

/-- The value signed when `SIGHASH_SINGLE` names an output that is not there. -/
def sigHashOne : Uint256 := Uint256.ofBytes (1 :: List.replicate 31 0)

/-- `SignatureHash`; it asserts that the input exists. -/
def signatureHash (sigversion : SigVersion) (cache : Option PrecomputedTransactionData) : Option Uint256 :=
  txTo.vin[nIn]?.map fun txIn =>
    match sigversion with
    | .witnessV0 => Sha256.doubleHash256 (witnessPreimage scriptCode txTo nIn nHashType amount cache txIn)
    | .base =>
      if isSingle nHashType ∧ nIn ≥ txTo.vout.length then sigHashOne
      else Sha256.doubleHash256
        (SignatureSerializer.serialize txTo scriptCode nIn nHashType ++ writeLE 4 nHashType.toNat)

end

def locktimeThreshold : Nat := 500000000

def sequenceFinal : UInt32 := 0xffffffff

def sequenceLocktimeTypeFlag : Nat := 1 <<< 22

def sequenceLocktimeMask : Nat := 0xffff

/-- `GenericTransactionSignatureChecker` for an input that the transaction has. -/
structure TransactionSignatureChecker where
  curve : Secp256k1
  txTo : NetMessageTransaction
  nIn : Fin txTo.vin.length
  amount : Int
  txdata : Option PrecomputedTransactionData

namespace TransactionSignatureChecker

variable (checker : TransactionSignatureChecker)

def txIn : TxIn := checker.txTo.vin.get checker.nIn

def checkSig (vchSigIn vchPubKey : Bytes) (scriptCode : CScript) (sigversion : SigVersion) : Bool :=
  if !CPubKey.isValid vchPubKey then false
  else match vchSigIn.getLast? with
  | Option.none => false
  | some nHashType =>
    match signatureHash scriptCode checker.txTo checker.nIn nHashType checker.amount sigversion checker.txdata with
    | Option.none => false
    | some sighash =>
      match CPubKey.verify checker.curve vchPubKey sighash vchSigIn.dropLast with
      | .ok valid => valid
      | .error _ => false

def checkLockTime (nLockTime : Int) : Bool :=
  let txLockTime : Int := checker.txTo.nLockTime.toNat
  if ¬ ((txLockTime < locktimeThreshold ∧ nLockTime < locktimeThreshold) ∨
      (txLockTime ≥ locktimeThreshold ∧ nLockTime ≥ locktimeThreshold)) then false
  else if nLockTime > txLockTime then false
  else if checker.txIn.sequence = sequenceFinal then false
  else true

/-- The operand is not negative where the interpreter calls this. -/
def checkSequence (nSequence : Int) : Bool :=
  let txToSequence := checker.txIn.sequence.toNat
  if (checker.txTo.nVersion % 2 ^ 32) < 2 then false
  else if txToSequence &&& (1 <<< 31) ≠ 0 then false
  else
    let nLockTimeMask := sequenceLocktimeTypeFlag ||| sequenceLocktimeMask
    let txToSequenceMasked := txToSequence &&& nLockTimeMask
    let nSequenceMasked := nSequence.toNat &&& nLockTimeMask
    if ¬ ((txToSequenceMasked < sequenceLocktimeTypeFlag ∧ nSequenceMasked < sequenceLocktimeTypeFlag) ∨
        (txToSequenceMasked ≥ sequenceLocktimeTypeFlag ∧ nSequenceMasked ≥ sequenceLocktimeTypeFlag)) then false
    else if nSequenceMasked > txToSequenceMasked then false
    else true

def toBase : BaseSignatureChecker where
  checkSig := checker.checkSig
  checkLockTime := checker.checkLockTime
  checkSequence := checker.checkSequence

end TransactionSignatureChecker

end BitcoinGpuMiner
