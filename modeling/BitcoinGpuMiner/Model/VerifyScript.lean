import BitcoinGpuMiner.Model.SignatureHash

/-! # `VerifyScript`

Two scripts on one stack, then the script behind a script hash and the program behind a witness. The state is the
number of calls of `CheckSig`.
-/

namespace BitcoinGpuMiner

set_option autoImplicit false

open ScriptValidation

def witnessV0ScriptHashSize : Nat := 32

def witnessV0KeyHashSize : Nat := 20

abbrev Verify := EStateM Halt Nat

/-- `OP_DUP OP_HASH160 <program> OP_EQUALVERIFY OP_CHECKSIG`. -/
def payToPubKeyHash (program : Bytes) : CScript :=
  CScript.pushBytes [CScript.OP_DUP, CScript.OP_HASH160] program ++ [CScript.OP_EQUALVERIFY, CScript.OP_CHECKSIG]

section

variable (flags : UInt32) (checker : BaseSignatureChecker)

/-- The common end of the two programs of version 0. -/
def executeWitnessScript (stack : List Bytes) (scriptPubKey : CScript) : Verify Unit := do
  errorIf (∃ vch ∈ stack, vch.length > CScript.maxScriptElementSize) .pushSize
  let stack ← evalScript ⟨flags, checker, .witnessV0⟩ stack scriptPubKey
  errorIf (stack.length ≠ 1) .cleanstack
  errorIf (castToBool (stack.headD []) = false) .evalFalse

def verifyWitnessProgram (witness : List Bytes) (witversion : Nat) (program : Bytes) : Verify Unit :=
  if witversion = 0 then
    if program.length = witnessV0ScriptHashSize then
      match witness.getLast? with
      | none => throw (.error .witnessProgramWitnessEmpty)
      | some scriptPubKey => do
        errorIf (Sha256.hash scriptPubKey ≠ program) .witnessProgramMismatch
        executeWitnessScript flags checker witness.dropLast.reverse scriptPubKey
    else if program.length = witnessV0KeyHashSize then do
      errorIf (witness.length ≠ 2) .witnessProgramMismatch
      executeWitnessScript flags checker witness.reverse (payToPubKeyHash program)
    else throw (.error .witnessProgramWrongLength)
  else onFlag flags verifyDiscourageUpgradableWitnessProgram (throw (.error .discourageUpgradableWitnessProgram))

/-- `stack.resize(1)`, which keeps the item at the bottom. -/
def resizeToOne (stack : List Bytes) : List Bytes := [stack.getLastD []]

/-- The end of both stages: the stack must hold a true item on top. -/
def requireTrue (stack : List Bytes) : Verify Unit := do
  errorIf (stack = []) .evalFalse
  errorIf (castToBool (stack.headD []) = false) .evalFalse

/-- A witness program in `script`, which is where `WITNESS` looks for one: whether there is one, and the stack. -/
def verifyWitnessOf (witness : List Bytes) (script : CScript) (malleated : Prop) [Decidable malleated] (e : ScriptError)
    (stack : List Bytes) : Verify (Bool × List Bytes) :=
  if hasFlag flags verifyWitness then
    match CScript.isWitnessProgram script with
    | none => pure (false, stack)
    | some (version, program) => do
      errorIf malleated e
      verifyWitnessProgram flags checker witness version program
      pure (true, resizeToOne stack)
  else pure (false, stack)

/-- The script behind a script hash, evaluated on the stack that the scriptSig left. -/
def verifyP2SHScript (witness : List Bytes) (scriptSig : CScript) (stackCopy : List Bytes) :
    Verify (Bool × List Bytes) := do
  errorIf (CScript.isPushOnly scriptSig = false) .sigPushonly
  assert (stackCopy ≠ [])
  let pubKey2 := stackCopy.headD []
  let stack ← evalScript ⟨flags, checker, .base⟩ stackCopy.tail pubKey2
  requireTrue stack
  verifyWitnessOf flags checker witness pubKey2 (scriptSig ≠ CScript.pushBytes [] pubKey2)
    .witnessMalleatedP2SH stack

/-- The stage for script hashes: whether there was a witness in it, and the stack. -/
def verifyNested (witness : List Bytes) (scriptSig scriptPubKey : CScript) (stackCopy stack : List Bytes) :
    Verify (Bool × List Bytes) :=
  if hasFlag flags verifyP2SH ∧ CScript.isPayToScriptHash scriptPubKey then
    verifyP2SHScript flags checker witness scriptSig stackCopy
  else pure (false, stack)

/-- `CLEANSTACK`, which comes with `P2SH` and `WITNESS`. -/
def requireCleanStack (stack : List Bytes) : Verify Unit :=
  onFlag flags verifyCleanstack do
    assert (hasFlag flags verifyP2SH)
    assert (hasFlag flags verifyWitness)
    errorIf (stack.length ≠ 1) .cleanstack

/-- A witness that nothing has asked for. -/
def requireExpectedWitness (hadWitness : Bool) (witness : List Bytes) : Verify Unit :=
  onFlag flags verifyWitness do
    assert (hasFlag flags verifyP2SH)
    errorIf (hadWitness = false ∧ witness ≠ []) .witnessUnexpected

def verifyScript (scriptSig scriptPubKey : CScript) (witness : List Bytes) : Verify Unit := do
  onFlag flags verifySigpushonly (errorIf (CScript.isPushOnly scriptSig = false) .sigPushonly)
  let stackCopy ← evalScript ⟨flags, checker, .base⟩ [] scriptSig
  let stack ← evalScript ⟨flags, checker, .base⟩ stackCopy scriptPubKey
  requireTrue stack
  let bare ← verifyWitnessOf flags checker witness scriptPubKey (scriptSig.length ≠ 0) .witnessMalleated stack
  let nested ← verifyNested flags checker witness scriptSig scriptPubKey stackCopy bare.2
  requireCleanStack flags nested.2
  requireExpectedWitness flags (bare.1 || nested.1) witness

end

/-- `WitnessSigOps`. -/
def witnessSigOps (witversion : Nat) (witprogram : Bytes) (witness : List Bytes) : Nat :=
  if witversion = 0 then
    if witprogram.length = witnessV0KeyHashSize then 1
    else match witness.getLast? with
    | none => 0
    | some subscript =>
      if witprogram.length = witnessV0ScriptHashSize then (CScript.getSigOpCountWith true subscript).toNat else 0
  else 0

/-- The last item of a script of pushes, read without looking at failures. -/
def lastItem : Nat → CScript → Bytes → Bytes
  | 0, _, data => data
  | fuel + 1, pc, data =>
    if pc.isEmpty then data
    else match CScript.getOp pc with
    | .error _ => []
    | .ok (_, data, rest) => lastItem fuel rest data

/-- `CountWitnessSigOps`, which asserts that `WITNESS` comes with `P2SH`. -/
def countWitnessSigOps (flags : UInt32) (scriptSig scriptPubKey : CScript) (witness : List Bytes) : Option Nat :=
  if !hasFlag flags verifyWitness then some 0
  else if !hasFlag flags verifyP2SH then none
  else match CScript.isWitnessProgram scriptPubKey with
  | some (version, program) => some (witnessSigOps version program witness)
  | none =>
    if CScript.isPayToScriptHash scriptPubKey ∧ CScript.isPushOnly scriptSig then
      match CScript.isWitnessProgram (lastItem scriptSig.length scriptSig []) with
      | some (version, program) => some (witnessSigOps version program witness)
      | none => some 0
    else some 0

/-- `VerifyScript` as `CheckTransaction` calls it, over a curve library: the checker gets the transaction, the input
and the amount, and the hashes computed ahead. -/
def verifyScriptWith (curve : Secp256k1) : VerifyScript :=
  fun scriptSig scriptPubKey witness flags tx nIn amount =>
    if h : nIn < tx.vin.length then
      let checker : TransactionSignatureChecker :=
        ⟨curve, tx, ⟨nIn, h⟩, amount, some (PrecomputedTransactionData.ofTransaction tx)⟩
      match verifyScript flags checker.toBase scriptSig scriptPubKey witness 0 with
      | .ok _ _ => true
      | .error _ _ => false
    else false

end BitcoinGpuMiner
