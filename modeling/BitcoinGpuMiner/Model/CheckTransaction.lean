import BitcoinGpuMiner.Model.Store

/-! # `BlockChain::CheckTransaction`

The script interpreter is a parameter. The overlay of a candidate branch is optional,
as the three trailing arguments of the source are.
-/

namespace BitcoinGpuMiner

set_option autoImplicit false

namespace ScriptValidation

def verifyP2SH : UInt32 := UInt32.ofNat (1 <<< 0)

def verifyDersig : UInt32 := UInt32.ofNat (1 <<< 2)

def verifyNulldummy : UInt32 := UInt32.ofNat (1 <<< 4)

def verifyCheckLockTimeVerify : UInt32 := UInt32.ofNat (1 <<< 9)

def verifyCheckSequenceVerify : UInt32 := UInt32.ofNat (1 <<< 10)

def verifyWitness : UInt32 := UInt32.ofNat (1 <<< 11)

def isScriptWitnessEnabled : Bool := params.segwitHeight ≠ 2147483647

def isWitnessEnabled (index : BlockIndex) : Bool :=
  let height := if index.hashPrevBlock.isNull then 0 else index.height
  height ≥ params.segwitHeight

def getBlockScriptFlags (index : BlockIndex) : UInt32 :=
  let p2sh := params.bip16Exception.isNull || index.hash.isNull || index.hash != params.bip16Exception
  (if p2sh then verifyP2SH else 0) |||
  (if p2sh && isScriptWitnessEnabled then verifyWitness else 0) |||
  (if index.height ≥ params.bip66Height then verifyDersig else 0) |||
  (if index.height ≥ params.bip65Height then verifyCheckLockTimeVerify else 0) |||
  (if index.height ≥ params.csvHeight then verifyCheckSequenceVerify else 0) |||
  (if isWitnessEnabled index then verifyNulldummy else 0)

end ScriptValidation

/-- `VerifyScript`: signature script, output script, witness, flags, and what the signature
checker is given: the transaction, the input's position and the amount. -/
abbrev VerifyScript :=
  CScript → CScript → List Bytes → UInt32 → NetMessageTransaction → Nat → Int → Bool

/-- `memValidTxs`, `memValidUTXO` and `forkHeight`. -/
structure Overlay where
  memValidTxs : HashMap TxIdx
  memValidUTXO : UtxoSet
  forkHeight : Int

/-- The fields of `CheckTransactionResult` that are ever written. -/
structure CheckTransactionResult where
  nFees : Int
  nInputs : Int
deriving DecidableEq

/-- The loop over the outputs: their sum, or nothing if a check fails. -/
def checkOutputs : List TxOut → Int → Option Int
  | [], valueOut => some valueOut
  | txOut :: rest, valueOut =>
    if txOut.nValue < 0 then none
    else if txOut.nValue > maxMoney then none
    else if !moneyRange (valueOut + txOut.nValue) then none
    else checkOutputs rest (valueOut + txOut.nValue)

/-- The overlay counts only above a positive fork height. -/
def Overlay.active : Option Overlay → Option Overlay
  | some overlay => if overlay.forkHeight > 0 then some overlay else none
  | none => none

/-- `pOut`: the unspent output an input names. -/
def findUTXO (ledger : Ledger) (overlay : Option Overlay) (pt : OutPoint) : Option UtxoEntry :=
  match Overlay.active overlay with
  | some overlay =>
    match overlay.memValidUTXO[pt]? with
    | some entry => some entry
    | none =>
      match ledger.utxo.canUse pt with
      | some entry => if entry.height > overlay.forkHeight then none else some entry
      | none => none
  | none => ledger.utxo.canUse pt

/-- `pPrevOutputTxIdx`: the indexed transaction an input names. -/
def findPrevTx (ledger : Ledger) (overlay : Option Overlay) (hash : Uint256) : Except Fault (Option TxIdx) :=
  match Overlay.active overlay with
  | some overlay =>
    match overlay.memValidTxs[hash]? with
    | some idx => .ok (some idx)
    | none =>
      match ledger.txIndex[hash]? with
      -- the height is read through `pPrevOutputTxIdx` before that pointer is set
      | some _ => .error .nullDereference
      | none => .ok none
  | none => .ok ledger.txIndex[hash]?

section Inputs

variable (verifyScript : VerifyScript) (ledger : Ledger) (scriptFlags : UInt32) (height : Int)
variable (overlay : Option Overlay) (tx : NetMessageTransaction)

/-- One round of the loop over the inputs, from the sum of the earlier ones to the next sum. -/
def checkInput (txInI : Nat) (txIn : TxIn) (vInOutPoints : List OutPoint) (valueIn : Int) :
    Except Fault (Option Int) :=
  if txIn.previousOutput.isNull then .ok none
  else if txIn.previousOutput ∈ vInOutPoints then .ok none
  else match findUTXO ledger overlay txIn.previousOutput with
  | none => .ok none
  | some _ =>
    match findPrevTx ledger overlay txIn.previousOutput.hashTransaction with
    | .error fault => .error fault
    | .ok none => .ok none
    | .ok (some idx) =>
      match idx.tx.vout[txIn.previousOutput.outPutIdx.toNat]? with
      | none => .ok none
      | some utxo =>
        if idx.tx.isCoinBase && decide (height - idx.height < coinbaseMaturity) then .ok none
        else if !moneyRange utxo.nValue || !moneyRange (valueIn + utxo.nValue) then .ok none
        else if !verifyScript txIn.scriptSig utxo.scriptPubKey txIn.scriptWitness scriptFlags tx txInI utxo.nValue
          then .ok none
        else .ok (some (valueIn + utxo.nValue))

def checkInputs : Nat → List TxIn → List OutPoint → Int → Except Fault (Option Int)
  | _, [], _, valueIn => .ok (some valueIn)
  | txInI, txIn :: rest, vInOutPoints, valueIn =>
    match checkInput verifyScript ledger scriptFlags height overlay tx txInI txIn vInOutPoints valueIn with
    | .error fault => .error fault
    | .ok none => .ok none
    | .ok (some valueIn) => checkInputs (txInI + 1) rest (txIn.previousOutput :: vInOutPoints) valueIn

/-- `CheckTransaction`: the updated result, or `none` where the source returns false. -/
def checkTransaction (result : CheckTransactionResult) : Except Fault (Option CheckTransactionResult) :=
  let result := { result with nInputs := result.nInputs + tx.vin.length }
  if tx.vin.isEmpty then .ok none
  else if tx.vout.isEmpty then .ok none
  else if tx.getSerializeSize * witnessScaleFactor > maxBlockWeight then .ok none
  else match checkOutputs tx.vout 0 with
  | none => .ok none
  | some valueOut =>
    if tx.isCoinBase then
      let size := (tx.vin.headD ⟨OutPoint.null, [], 0, []⟩).scriptSig.length
      if size < 2 ∨ size > 100 then .ok none else .ok (some result)
    else match checkInputs verifyScript ledger scriptFlags height overlay tx 0 tx.vin [] 0 with
    | .error fault => .error fault
    | .ok none => .ok none
    | .ok (some valueIn) =>
      if valueIn < valueOut then .ok none
      -- the fee replaces the tally of the earlier transactions
      else if !moneyRange (valueIn - valueOut) then .ok none
      else .ok (some { result with nFees := valueIn - valueOut })

end Inputs

section Transactions

variable (verifyScript : VerifyScript) (ledger : Ledger) (scriptFlags : UInt32) (height : Int)
variable (overlay : Option Overlay)

def checkTransactionsLoop : List NetMessageTransaction → CheckTransactionResult →
    Except Fault (Option CheckTransactionResult)
  | [], result => .ok (some result)
  | tx :: rest, result =>
    match checkTransaction verifyScript ledger scriptFlags height overlay tx result with
    | .error fault => .error fault
    | .ok none => .ok none
    | .ok (some result) => checkTransactionsLoop rest result

def checkTransactions (vtx : List NetMessageTransaction) : Except Fault (Option CheckTransactionResult) :=
  checkTransactionsLoop verifyScript ledger scriptFlags height overlay vtx ⟨0, 0⟩

end Transactions

end BitcoinGpuMiner
