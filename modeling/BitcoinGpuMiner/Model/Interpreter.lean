import BitcoinGpuMiner.Encoding.Digests
import BitcoinGpuMiner.Encoding.ScriptNumber
import BitcoinGpuMiner.Encoding.ScriptOps
import BitcoinGpuMiner.Model.CheckTransaction
import BitcoinGpuMiner.Model.SignatureEncoding

/-! # `EvalScript`

The stack machine, instruction by instruction. Vectors that are used as stacks are lists with the top first. What the
source checks at run time (`at`, `popstack`, `assert`) is checked here with the same outcome; what it does not check
but the language leaves undefined (iterators outside a vector, signed overflow, reads behind a buffer) ends the run
with an outcome of its own.
-/

namespace BitcoinGpuMiner

set_option autoImplicit false

inductive ScriptError where
  | unknownError
  | evalFalse
  | opReturn
  | scriptSize
  | pushSize
  | opCount
  | stackSize
  | sigCount
  | pubkeyCount
  | verify
  | equalverify
  | checkmultisigverify
  | checksigverify
  | numequalverify
  | badOpcode
  | disabledOpcode
  | invalidStackOperation
  | invalidAltstackOperation
  | unbalancedConditional
  | negativeLocktime
  | unsatisfiedLocktime
  | sigHashtype
  | sigDer
  | minimaldata
  | sigPushonly
  | sigHighS
  | sigNulldummy
  | pubkeytype
  | cleanstack
  | minimalif
  | sigNullfail
  | discourageUpgradableNops
  | discourageUpgradableWitnessProgram
  | witnessProgramWrongLength
  | witnessProgramWitnessEmpty
  | witnessProgramMismatch
  | witnessMalleated
  | witnessMalleatedP2SH
  | witnessUnexpected
  | witnessPubkeytype
  | opCodeseparator
  | sigFindAndDelete
deriving DecidableEq

/-! The verification flags that the node itself never sets. -/

namespace ScriptValidation

def verifyStrictenc : UInt32 := UInt32.ofNat (1 <<< 1)
def verifyLowS : UInt32 := UInt32.ofNat (1 <<< 3)
def verifySigpushonly : UInt32 := UInt32.ofNat (1 <<< 5)
def verifyMinimaldata : UInt32 := UInt32.ofNat (1 <<< 6)
def verifyDiscourageUpgradableNops : UInt32 := UInt32.ofNat (1 <<< 7)
def verifyCleanstack : UInt32 := UInt32.ofNat (1 <<< 8)
def verifyDiscourageUpgradableWitnessProgram : UInt32 := UInt32.ofNat (1 <<< 12)
def verifyMinimalif : UInt32 := UInt32.ofNat (1 <<< 13)
def verifyNullfail : UInt32 := UInt32.ofNat (1 <<< 14)
def verifyWitnessPubkeytype : UInt32 := UInt32.ofNat (1 <<< 15)
def verifyConstScriptcode : UInt32 := UInt32.ofNat (1 <<< 16)

def hasFlag (flags flag : UInt32) : Bool := flags &&& flag != 0

end ScriptValidation

open ScriptValidation

inductive SigVersion where
  | base
  | witnessV0
deriving DecidableEq

/-- What a `BaseSignatureChecker` answers. -/
structure BaseSignatureChecker where
  checkSig : Bytes → Bytes → CScript → SigVersion → Bool
  checkLockTime : Int → Bool
  checkSequence : Int → Bool

/-- The exceptions that can be thrown inside the `try` of `EvalScript`. -/
inductive ScriptException where
  | scriptNum (reason : CScriptNum.Refusal)
  | outOfRange
  | stackEmpty
deriving DecidableEq

inductive Halt where
  | error (serror : ScriptError)
  | thrown (exception : ScriptException)
  | assertion
  | undefined
deriving DecidableEq

/-- The variables of `EvalScript`; `sigChecks` counts the calls of `CheckSig` and is not in the source. -/
structure Machine where
  stack : List Bytes
  altstack : List Bytes
  vfExec : List Bool
  pbegincodehash : CScript
  nOpCount : Nat
  sigChecks : Nat

abbrev Exec := EStateM Halt Machine

section

variable {σ : Type}

/-- `if (c) return set_error(serror, e);` -/
def errorIf (c : Prop) [Decidable c] (e : ScriptError) : EStateM Halt σ Unit :=
  if c then throw (.error e) else pure ()

def assert (c : Prop) [Decidable c] : EStateM Halt σ Unit := if c then pure () else throw .assertion

def defined (c : Prop) [Decidable c] : EStateM Halt σ Unit := if c then pure () else throw .undefined

/-- A test that only a flag asks for. -/
def onFlag (flags flag : UInt32) (p : EStateM Halt σ Unit) : EStateM Halt σ Unit :=
  if hasFlag flags flag then p else pure ()

end

namespace Exec

def stackSize : Exec Nat := fun m => .ok m.stack.length m

/-- `stacktop(-i)`. -/
def stackTop (i : Nat) : Exec Bytes := fun m =>
  match i with
  | 0 => .error (.thrown .outOfRange) m
  | i + 1 =>
    match m.stack[i]? with
    | some vch => .ok vch m
    | none => .error (.thrown .outOfRange) m

def popStack : Exec Unit := fun m =>
  match m.stack with
  | [] => .error (.thrown .stackEmpty) m
  | _ :: rest => .ok () { m with stack := rest }

def pushStack (vch : Bytes) : Exec Unit := fun m => .ok () { m with stack := vch :: m.stack }

/-- `swap(stacktop(-i), stacktop(-j))`. -/
def swapStack (i j : Nat) : Exec Unit := do
  let x ← stackTop i
  let y ← stackTop j
  modify fun m => { m with stack := (m.stack.set (i - 1) y).set (j - 1) x }

/-- `stack.erase(stack.end() - first, stack.end() - last)`. -/
def eraseStack (first last : Nat) : Exec Unit := do
  defined (last ≤ first ∧ first ≤ (← stackSize))
  modify fun m => { m with stack := m.stack.take last ++ m.stack.drop first }

/-- `stack.insert(stack.end() - i, vch)`. -/
def insertStack (i : Nat) (vch : Bytes) : Exec Unit := do
  defined (i ≤ (← stackSize))
  modify fun m => { m with stack := m.stack.take i ++ vch :: m.stack.drop i }

/-- The constructor of `CScriptNum` from a stack item. -/
def scriptNum (vch : Bytes) (fRequireMinimal : Bool) (nMaxNumSize : Nat) : Exec Int :=
  match CScriptNum.ofVch vch fRequireMinimal nMaxNumSize with
  | .ok n => pure n
  | .error reason => throw (.thrown (.scriptNum reason))

/-- A result of signed 64-bit arithmetic. -/
def int64 (n : Int) : Exec Int := do
  defined (-2 ^ 63 ≤ n ∧ n < 2 ^ 63)
  pure n

/-- A test of an encoding; a read behind its end is undefined. -/
def reading (test : Reading Unit) (e : ScriptError) : Exec Unit :=
  match test with
  | .ok _ => pure ()
  | .error .refused => throw (.error e)
  | .error .outOfBounds => throw .undefined

end Exec

open Exec

def vchFalse : Bytes := []

def vchTrue : Bytes := [1]

def vchBool (b : Bool) : Bytes := if b then vchTrue else vchFalse

section Encodings

variable (flags : UInt32)

def isLowDERSignature (vchSig : Bytes) : Exec Unit := do
  reading (isValidSignatureEncoding vchSig) .sigDer
  match CPubKey.checkLowS vchSig.dropLast with
  | .ok low => errorIf (low = false) .sigHighS
  | .error _ => throw .undefined

def checkSignatureEncoding (vchSig : Bytes) : Exec Unit :=
  if vchSig.length = 0 then pure ()
  else do
    onFlag flags (verifyDersig ||| verifyLowS ||| verifyStrictenc)
      (reading (isValidSignatureEncoding vchSig) .sigDer)
    onFlag flags verifyLowS (isLowDERSignature vchSig)
    onFlag flags verifyStrictenc (errorIf (isDefinedHashtypeSignature vchSig = false) .sigHashtype)

def checkPubKeyEncoding (sigversion : SigVersion) (vchPubKey : Bytes) : Exec Unit := do
  onFlag flags verifyStrictenc (errorIf (isCompressedOrUncompressedPubKey vchPubKey = false) .pubkeytype)
  onFlag flags verifyWitnessPubkeytype
    (errorIf (sigversion = .witnessV0 ∧ isCompressedPubKey vchPubKey = false) .witnessPubkeytype)

/-- `CheckMinimalPush` for an opcode that pushes data. -/
def checkMinimalPush (data : Bytes) (opcode : UInt8) : Bool :=
  match data with
  | [] => opcode == CScript.OP_0
  | [b] => if (1 ≤ b ∧ b ≤ 16) ∨ b = 0x81 then false else opcode == 1
  | data =>
    if data.length ≤ 75 then opcode.toNat == data.length
    else if data.length ≤ 255 then opcode == CScript.OP_PUSHDATA1
    else if data.length ≤ 65535 then opcode == CScript.OP_PUSHDATA2
    else true

end Encodings

/-! ## The instructions -/

inductive StackOp where
  | drop2
  | dup2
  | dup3
  | over2
  | rot2
  | swap2
  | ifDup
  | depth
  | drop
  | dup
  | nip
  | over1
  | rot
  | swap
  | tuck
  | size
deriving DecidableEq

inductive UnaryOp where
  | add1
  | sub1
  | negate
  | abs
  | not
  | notEqual0
deriving DecidableEq

inductive BinaryOp where
  | add
  | sub
  | boolAnd
  | boolOr
  | numEqual
  | numEqualVerify
  | numNotEqual
  | lessThan
  | greaterThan
  | lessThanOrEqual
  | greaterThanOrEqual
  | min
  | max
deriving DecidableEq

inductive HashOp where
  | ripemd160
  | sha1
  | sha256
  | hash160
  | hash256
deriving DecidableEq

/-- The cases of the `switch`; `unknown` is its default. -/
inductive Instruction where
  | number (n : Int)
  | nop
  | checkLockTimeVerify
  | checkSequenceVerify
  | upgradableNop
  | opIf (negated : Bool)
  | opElse
  | opEndIf
  | verify
  | opReturn
  | toAltStack
  | fromAltStack
  | stackOp (op : StackOp)
  | pick
  | roll
  | equal (verify : Bool)
  | unary (op : UnaryOp)
  | binary (op : BinaryOp)
  | within
  | hash (op : HashOp)
  | codeSeparator
  | checkSig (verify : Bool)
  | checkMultiSig (verify : Bool)
  | unknown
deriving DecidableEq

namespace Instruction

def table : List (UInt8 × Instruction) := [
  (0x61, nop),
  (0x63, opIf false), (0x64, opIf true), (0x67, opElse), (0x68, opEndIf), (0x69, verify), (0x6a, opReturn),
  (0x6b, toAltStack), (0x6c, fromAltStack),
  (0x6d, stackOp .drop2), (0x6e, stackOp .dup2), (0x6f, stackOp .dup3), (0x70, stackOp .over2),
  (0x71, stackOp .rot2), (0x72, stackOp .swap2), (0x73, stackOp .ifDup), (0x74, stackOp .depth),
  (0x75, stackOp .drop), (0x76, stackOp .dup), (0x77, stackOp .nip), (0x78, stackOp .over1), (0x79, pick),
  (0x7a, roll), (0x7b, stackOp .rot), (0x7c, stackOp .swap), (0x7d, stackOp .tuck), (0x82, stackOp .size),
  (0x87, equal false), (0x88, equal true),
  (0x8b, unary .add1), (0x8c, unary .sub1), (0x8f, unary .negate), (0x90, unary .abs), (0x91, unary .not),
  (0x92, unary .notEqual0),
  (0x93, binary .add), (0x94, binary .sub), (0x9a, binary .boolAnd), (0x9b, binary .boolOr),
  (0x9c, binary .numEqual), (0x9d, binary .numEqualVerify), (0x9e, binary .numNotEqual), (0x9f, binary .lessThan),
  (0xa0, binary .greaterThan), (0xa1, binary .lessThanOrEqual), (0xa2, binary .greaterThanOrEqual),
  (0xa3, binary .min), (0xa4, binary .max), (0xa5, within),
  (0xa6, hash .ripemd160), (0xa7, hash .sha1), (0xa8, hash .sha256), (0xa9, hash .hash160), (0xaa, hash .hash256),
  (0xab, codeSeparator), (0xac, checkSig false), (0xad, checkSig true), (0xae, checkMultiSig false),
  (0xaf, checkMultiSig true),
  (0xb0, upgradableNop), (0xb1, checkLockTimeVerify), (0xb2, checkSequenceVerify), (0xb3, upgradableNop),
  (0xb4, upgradableNop), (0xb5, upgradableNop), (0xb6, upgradableNop), (0xb7, upgradableNop), (0xb8, upgradableNop),
  (0xb9, upgradableNop)]

def ofOpcode (opcode : UInt8) : Instruction :=
  if opcode = 0x4f ∨ (CScript.OP_1 ≤ opcode ∧ opcode ≤ CScript.OP_16) then number ((opcode.toNat : Int) - 0x50)
  else (table.lookup opcode).getD unknown

end Instruction

/-- `OP_CAT` and the fourteen others that fail the script even where they are not executed. -/
def disabledOpcodes : List UInt8 :=
  [0x7e, 0x7f, 0x80, 0x81, 0x83, 0x84, 0x85, 0x86, 0x8d, 0x8e, 0x95, 0x96, 0x97, 0x98, 0x99]

def execStackOp : StackOp → Exec Unit
  | .drop2 => do
    errorIf ((← stackSize) < 2) .invalidStackOperation
    popStack
    popStack
  | .dup2 => do
    errorIf ((← stackSize) < 2) .invalidStackOperation
    let vch1 ← stackTop 2
    let vch2 ← stackTop 1
    pushStack vch1
    pushStack vch2
  | .dup3 => do
    errorIf ((← stackSize) < 3) .invalidStackOperation
    let vch1 ← stackTop 3
    let vch2 ← stackTop 2
    let vch3 ← stackTop 1
    pushStack vch1
    pushStack vch2
    pushStack vch3
  | .over2 => do
    errorIf ((← stackSize) < 4) .invalidStackOperation
    let vch1 ← stackTop 4
    let vch2 ← stackTop 3
    pushStack vch1
    pushStack vch2
  | .rot2 => do
    errorIf ((← stackSize) < 6) .invalidStackOperation
    let vch1 ← stackTop 6
    let vch2 ← stackTop 5
    eraseStack 6 4
    pushStack vch1
    pushStack vch2
  | .swap2 => do
    errorIf ((← stackSize) < 4) .invalidStackOperation
    swapStack 4 2
    swapStack 3 1
  | .ifDup => do
    errorIf ((← stackSize) < 1) .invalidStackOperation
    let vch ← stackTop 1
    if castToBool vch then pushStack vch else pure ()
  | .depth => do
    pushStack (CScript.serializeNum (← stackSize))
  | .drop => do
    errorIf ((← stackSize) < 1) .invalidStackOperation
    popStack
  | .dup => do
    errorIf ((← stackSize) < 1) .invalidStackOperation
    let vch ← stackTop 1
    pushStack vch
  | .nip => do
    errorIf ((← stackSize) < 2) .invalidStackOperation
    eraseStack 2 1
  | .over1 => do
    errorIf ((← stackSize) < 2) .invalidStackOperation
    let vch ← stackTop 2
    pushStack vch
  | .rot => do
    errorIf ((← stackSize) < 3) .invalidStackOperation
    swapStack 3 2
    swapStack 2 1
  | .swap => do
    errorIf ((← stackSize) < 2) .invalidStackOperation
    swapStack 2 1
  | .tuck => do
    errorIf ((← stackSize) < 2) .invalidStackOperation
    let vch ← stackTop 1
    insertStack 2 vch
  | .size => do
    errorIf ((← stackSize) < 1) .invalidStackOperation
    let vch ← stackTop 1
    pushStack (CScript.serializeNum vch.length)

/-- `OP_PICK` and `OP_ROLL`. -/
def execPick (fRequireMinimal roll : Bool) : Exec Unit := do
  errorIf ((← stackSize) < 2) .invalidStackOperation
  let n := CScriptNum.getint (← scriptNum (← stackTop 1) fRequireMinimal CScriptNum.defaultMaxNumSize)
  popStack
  errorIf (n < 0 ∨ n ≥ (← stackSize)) .invalidStackOperation
  let vch ← stackTop (n.toNat + 1)
  if roll then eraseStack (n.toNat + 1) n.toNat else pure ()
  pushStack vch

/-- `if (op == …VERIFY) { if (f) popstack(stack); else return set_error(…); }` -/
def execVerifySuffix (verify success : Bool) (e : ScriptError) : Exec Unit :=
  if verify then if success then popStack else throw (.error e) else pure ()

def execEqual (verify : Bool) : Exec Unit := do
  errorIf ((← stackSize) < 2) .invalidStackOperation
  let vch1 ← stackTop 2
  let vch2 ← stackTop 1
  let fEqual := vch1 == vch2
  popStack
  popStack
  pushStack (vchBool fEqual)
  execVerifySuffix verify fEqual .equalverify

def boolNum (b : Bool) : Int := if b then 1 else 0

/-- The assertions are those of `+=`, `-=` and the unary minus of `CScriptNum`. -/
def UnaryOp.apply (bn : Int) : UnaryOp → Exec Int
  | .add1 => do
    assert (bn ≤ 2 ^ 63 - 1 - 1)
    int64 (bn + 1)
  | .sub1 => do
    assert (bn ≥ -2 ^ 63 + 1)
    int64 (bn - 1)
  | .negate => do
    assert (bn ≠ -2 ^ 63)
    int64 (-bn)
  | .abs =>
    if bn < 0 then do
      assert (bn ≠ -2 ^ 63)
      int64 (-bn)
    else pure bn
  | .not => pure (boolNum (bn == 0))
  | .notEqual0 => pure (boolNum (bn != 0))

def execUnary (fRequireMinimal : Bool) (op : UnaryOp) : Exec Unit := do
  errorIf ((← stackSize) < 1) .invalidStackOperation
  let bn ← scriptNum (← stackTop 1) fRequireMinimal CScriptNum.defaultMaxNumSize
  let bn ← op.apply bn
  popStack
  pushStack (CScript.serializeNum bn)

def BinaryOp.apply (bn1 bn2 : Int) : BinaryOp → Exec Int
  | .add => int64 (bn1 + bn2)
  | .sub => int64 (bn1 - bn2)
  | .boolAnd => pure (boolNum (bn1 != 0 && bn2 != 0))
  | .boolOr => pure (boolNum (bn1 != 0 || bn2 != 0))
  | .numEqual => pure (boolNum (bn1 == bn2))
  | .numEqualVerify => pure (boolNum (bn1 == bn2))
  | .numNotEqual => pure (boolNum (bn1 != bn2))
  | .lessThan => pure (boolNum (bn1 < bn2))
  | .greaterThan => pure (boolNum (bn1 > bn2))
  | .lessThanOrEqual => pure (boolNum (bn1 ≤ bn2))
  | .greaterThanOrEqual => pure (boolNum (bn1 ≥ bn2))
  | .min => pure (if bn1 < bn2 then bn1 else bn2)
  | .max => pure (if bn1 > bn2 then bn1 else bn2)

def execBinary (fRequireMinimal : Bool) (op : BinaryOp) : Exec Unit := do
  errorIf ((← stackSize) < 2) .invalidStackOperation
  let bn1 ← scriptNum (← stackTop 2) fRequireMinimal CScriptNum.defaultMaxNumSize
  let bn2 ← scriptNum (← stackTop 1) fRequireMinimal CScriptNum.defaultMaxNumSize
  let bn ← op.apply bn1 bn2
  popStack
  popStack
  pushStack (CScript.serializeNum bn)
  if op = .numEqualVerify then do
    if castToBool (← stackTop 1) then popStack else throw (.error .numequalverify)
  else pure ()

def execWithin (fRequireMinimal : Bool) : Exec Unit := do
  errorIf ((← stackSize) < 3) .invalidStackOperation
  let bn1 ← scriptNum (← stackTop 3) fRequireMinimal CScriptNum.defaultMaxNumSize
  let bn2 ← scriptNum (← stackTop 2) fRequireMinimal CScriptNum.defaultMaxNumSize
  let bn3 ← scriptNum (← stackTop 1) fRequireMinimal CScriptNum.defaultMaxNumSize
  let fValue := decide (bn2 ≤ bn1 ∧ bn1 < bn3)
  popStack
  popStack
  popStack
  pushStack (vchBool fValue)

def HashOp.apply (vch : Bytes) : HashOp → Bytes
  | .ripemd160 => Ripemd160.hash vch
  | .sha1 => Sha1.hash vch
  | .sha256 => Sha256.hash vch
  | .hash160 => BitcoinGpuMiner.hash160 vch
  | .hash256 => (Sha256.doubleHash256 vch).bytes

def execHash (op : HashOp) : Exec Unit := do
  errorIf ((← stackSize) < 1) .invalidStackOperation
  let vch ← stackTop 1
  popStack
  pushStack (op.apply vch)

/-- The parameters of one call of `EvalScript`. -/
structure Env where
  flags : UInt32
  checker : BaseSignatureChecker
  sigversion : SigVersion

namespace Env

variable (env : Env)

def fRequireMinimal : Bool := hasFlag env.flags verifyMinimaldata

def execCheckLockTimeVerify : Exec Unit :=
  onFlag env.flags verifyCheckLockTimeVerify do
    errorIf ((← stackSize) < 1) .invalidStackOperation
    let nLockTime ← scriptNum (← stackTop 1) env.fRequireMinimal 5
    errorIf (nLockTime < 0) .negativeLocktime
    errorIf (env.checker.checkLockTime nLockTime = false) .unsatisfiedLocktime

def execCheckSequenceVerify : Exec Unit :=
  onFlag env.flags verifyCheckSequenceVerify do
    errorIf ((← stackSize) < 1) .invalidStackOperation
    let nSequence ← scriptNum (← stackTop 1) env.fRequireMinimal 5
    errorIf (nSequence < 0) .negativeLocktime
    if nSequence.toNat &&& (1 <<< 31) ≠ 0 then pure ()
    else errorIf (env.checker.checkSequence nSequence = false) .unsatisfiedLocktime

/-- The value of the condition; a conditional inside a branch that is not executed has none. -/
def ifValue (fExec negated : Bool) : Exec Bool :=
  if fExec then do
    errorIf ((← stackSize) < 1) .unbalancedConditional
    let vch ← stackTop 1
    onFlag env.flags verifyMinimalif do
      errorIf (env.sigversion = .witnessV0 ∧ vch.length > 1) .minimalif
      errorIf (env.sigversion = .witnessV0 ∧ vch.length = 1 ∧ vch ≠ [1]) .minimalif
    popStack
    pure (castToBool vch != negated)
  else pure false

/-- `OP_IF` and `OP_NOTIF`, which are seen in branches that are not executed too. -/
def execIf (fExec negated : Bool) : Exec Unit := do
  let fValue ← env.ifValue fExec negated
  modify fun m => { m with vfExec := fValue :: m.vfExec }

def execElse : Exec Unit := fun m =>
  match m.vfExec with
  | [] => .error (.error .unbalancedConditional) m
  | fValue :: rest => .ok () { m with vfExec := (!fValue) :: rest }

def execEndIf : Exec Unit := fun m =>
  match m.vfExec with
  | [] => .error (.error .unbalancedConditional) m
  | _ :: rest => .ok () { m with vfExec := rest }

def execVerify : Exec Unit := do
  errorIf ((← stackSize) < 1) .invalidStackOperation
  if castToBool (← stackTop 1) then popStack else throw (.error .verify)

def execToAltStack : Exec Unit := do
  errorIf ((← stackSize) < 1) .invalidStackOperation
  let vch ← stackTop 1
  modify fun m => { m with altstack := vch :: m.altstack }
  popStack

/-- `altstacktop(-1)` and `popstack(altstack)` are of the same kind as those of the other stack. -/
def execFromAltStack : Exec Unit := fun m =>
  match m.altstack with
  | [] => .error (.error .invalidAltstackOperation) m
  | vch :: rest => .ok () { m with stack := vch :: m.stack, altstack := rest }

/-- The two tests in front of every call of the checker. -/
def checkEncodings (vchSig vchPubKey : Bytes) : Exec Unit := do
  checkSignatureEncoding env.flags vchSig
  checkPubKeyEncoding env.flags env.sigversion vchPubKey

/-- The call of the checker. -/
def callCheckSig (vchSig vchPubKey : Bytes) (scriptCode : CScript) : Exec Bool := fun m =>
  .ok (env.checker.checkSig vchSig vchPubKey scriptCode env.sigversion) { m with sigChecks := m.sigChecks + 1 }

/-- Outside of witnesses a signature is removed from the script it signs. -/
def dropSignature (vchSig : Bytes) (scriptCode : CScript) : Exec CScript :=
  if env.sigversion = .base then do
    let deleted := CScript.findAndDelete scriptCode (CScript.pushBytes [] vchSig)
    onFlag env.flags verifyConstScriptcode (errorIf (deleted.2 > 0) .sigFindAndDelete)
    pure deleted.1
  else pure scriptCode

def execCheckSig (verify : Bool) : Exec Unit := do
  errorIf ((← stackSize) < 2) .invalidStackOperation
  let vchSig ← stackTop 2
  let vchPubKey ← stackTop 1
  let scriptCode ← env.dropSignature vchSig (← get).pbegincodehash
  env.checkEncodings vchSig vchPubKey
  let fSuccess ← env.callCheckSig vchSig vchPubKey scriptCode
  onFlag env.flags verifyNullfail (errorIf (fSuccess = false ∧ vchSig.length ≠ 0) .sigNullfail)
  popStack
  popStack
  pushStack (vchBool fSuccess)
  execVerifySuffix verify fSuccess .checksigverify

/-- The first loop of `OP_CHECKMULTISIG`, from the `k`-th signature on. -/
def dropSignatures (isig : Nat) : Nat → Nat → CScript → Exec CScript
  | 0, _, scriptCode => pure scriptCode
  | left + 1, k, scriptCode => do
    let vchSig ← stackTop (isig + k)
    let scriptCode ← env.dropSignature vchSig scriptCode
    dropSignatures isig left (k + 1) scriptCode

/-- The second loop, by the number of keys left. There are never more signatures left than keys, so it does not run
out of keys. -/
def matchSignatures (scriptCode : CScript) : Nat → Nat → Nat → Nat → Exec Bool
  | _, 0, _, _ => pure true
  | 0, _ + 1, _, _ => pure false
  | nKeysCount + 1, nSigsCount + 1, isig, ikey => do
    let vchSig ← stackTop isig
    let vchPubKey ← stackTop ikey
    env.checkEncodings vchSig vchPubKey
    let fOk ← env.callCheckSig vchSig vchPubKey scriptCode
    let left := if fOk then nSigsCount else nSigsCount + 1
    if left > nKeysCount then pure false
    else matchSignatures scriptCode nKeysCount left (if fOk then isig + 1 else isig) (ikey + 1)

/-- The third loop: the arguments are removed, the signatures after `ikey2` other items. -/
def cleanUp (fSuccess : Bool) : Nat → Nat → Exec Unit
  | 0, _ => pure ()
  | i + 1, ikey2 => do
    onFlag env.flags verifyNullfail do
      if fSuccess = false ∧ ikey2 = 0 then errorIf ((← stackTop 1).length ≠ 0) .sigNullfail else pure ()
    popStack
    cleanUp fSuccess i (ikey2 - 1)

def execCheckMultiSig (verify : Bool) : Exec Unit := do
  errorIf ((← stackSize) < 1) .invalidStackOperation
  let nKeysCount := CScriptNum.getint (← scriptNum (← stackTop 1) env.fRequireMinimal CScriptNum.defaultMaxNumSize)
  errorIf (nKeysCount < 0 ∨ nKeysCount > 20) .pubkeyCount
  let nKeysCount := nKeysCount.toNat
  modify fun m => { m with nOpCount := m.nOpCount + nKeysCount }
  errorIf ((← get).nOpCount > CScript.maxOpsPerScript) .opCount
  errorIf ((← stackSize) < 2 + nKeysCount) .invalidStackOperation
  let nSigsCount :=
    CScriptNum.getint (← scriptNum (← stackTop (2 + nKeysCount)) env.fRequireMinimal CScriptNum.defaultMaxNumSize)
  errorIf (nSigsCount < 0 ∨ nSigsCount > nKeysCount) .sigCount
  let nSigsCount := nSigsCount.toNat
  errorIf ((← stackSize) < 3 + nKeysCount + nSigsCount) .invalidStackOperation
  let scriptCode ← env.dropSignatures (3 + nKeysCount) nSigsCount 0 (← get).pbegincodehash
  let fSuccess ← env.matchSignatures scriptCode nKeysCount nSigsCount (3 + nKeysCount) 2
  env.cleanUp fSuccess (2 + nKeysCount + nSigsCount) (nKeysCount + 2)
  errorIf ((← stackSize) < 1) .invalidStackOperation
  onFlag env.flags verifyNulldummy do
    errorIf ((← stackTop 1).length ≠ 0) .sigNulldummy
  popStack
  pushStack (vchBool fSuccess)
  execVerifySuffix verify fSuccess .checkmultisigverify

/-- The `switch`; `pc` stands behind the instruction. -/
def exec (fExec : Bool) (pc : CScript) : Instruction → Exec Unit
  | .number n => pushStack (CScript.serializeNum n)
  | .nop => pure ()
  | .checkLockTimeVerify => env.execCheckLockTimeVerify
  | .checkSequenceVerify => env.execCheckSequenceVerify
  | .upgradableNop => onFlag env.flags verifyDiscourageUpgradableNops (throw (.error .discourageUpgradableNops))
  | .opIf negated => env.execIf fExec negated
  | .opElse => execElse
  | .opEndIf => execEndIf
  | .verify => execVerify
  | .opReturn => throw (.error .opReturn)
  | .toAltStack => execToAltStack
  | .fromAltStack => execFromAltStack
  | .stackOp op => execStackOp op
  | .pick => execPick env.fRequireMinimal false
  | .roll => execPick env.fRequireMinimal true
  | .equal verify => execEqual verify
  | .unary op => execUnary env.fRequireMinimal op
  | .binary op => execBinary env.fRequireMinimal op
  | .within => execWithin env.fRequireMinimal
  | .hash op => execHash op
  | .codeSeparator => modify fun m => { m with pbegincodehash := pc }
  | .checkSig verify => env.execCheckSig verify
  | .checkMultiSig verify => env.execCheckMultiSig verify
  | .unknown => throw (.error .badOpcode)

/-- `if (opcode > OP_16 && ++nOpCount > MAX_OPS_PER_SCRIPT)` -/
def countOp (opcode : UInt8) : Exec Unit :=
  if opcode > CScript.OP_16 then do
    modify fun m => { m with nOpCount := m.nOpCount + 1 }
    errorIf ((← get).nOpCount > CScript.maxOpsPerScript) .opCount
  else pure ()

/-- What is asked of every operation, executed or not. -/
def screen (opcode : UInt8) (vchPushValue : Bytes) : Exec Unit := do
  errorIf (vchPushValue.length > CScript.maxScriptElementSize) .pushSize
  countOp opcode
  errorIf (opcode ∈ disabledOpcodes) .disabledOpcode
  onFlag env.flags verifyConstScriptcode
    (errorIf (opcode = CScript.OP_CODESEPARATOR ∧ env.sigversion = .base) .opCodeseparator)

def execPush (opcode : UInt8) (vchPushValue : Bytes) : Exec Unit := do
  onFlag env.flags verifyMinimaldata do
    assert (opcode ≤ CScript.OP_PUSHDATA4)
    errorIf (checkMinimalPush vchPushValue opcode = false) .minimaldata
  pushStack vchPushValue

/-- What is executed of an operation. -/
def dispatch (fExec : Bool) (opcode : UInt8) (vchPushValue : Bytes) (pc : CScript) : Exec Unit :=
  if fExec ∧ opcode ≤ CScript.OP_PUSHDATA4 then env.execPush opcode vchPushValue
  else if fExec ∨ (CScript.OP_IF ≤ opcode ∧ opcode ≤ CScript.OP_ENDIF) then
    env.exec fExec pc (Instruction.ofOpcode opcode)
  else pure ()

/-- One round of the loop, with the operation read and `pc` behind it. -/
def step (opcode : UInt8) (vchPushValue : Bytes) (pc : CScript) : Exec Unit := do
  let fExec := (← get).vfExec.all id
  env.screen opcode vchPushValue
  env.dispatch fExec opcode vchPushValue pc
  let m ← get
  errorIf (m.stack.length + m.altstack.length > CScript.maxStackSize) .stackSize

/-- The loop; every operation takes at least its opcode. -/
def evalLoop : Nat → CScript → Exec Unit
  | 0, _ => pure ()
  | fuel + 1, pc =>
    if pc.isEmpty then pure ()
    else match CScript.getOp pc with
    | .error _ => throw (.error .badOpcode)
    | .ok (opcode, vchPushValue, rest) => do
      env.step opcode vchPushValue rest
      evalLoop fuel rest

end Env

/-- `catch (...) { return set_error(serror, SCRIPT_ERR_UNKNOWN_ERROR); }` -/
def Halt.caught : Halt → Halt
  | .thrown _ => .error .unknownError
  | halt => halt

def Machine.start (stack : List Bytes) (script : CScript) (sigChecks : Nat) : Machine :=
  ⟨stack, [], [], script, 0, sigChecks⟩

/-- `EvalScript`: the stack it leaves. The state is the number of calls of `CheckSig` so far. -/
def evalScript (env : Env) (stack : List Bytes) (script : CScript) : EStateM Halt Nat (List Bytes) := fun sigChecks =>
  if script.length > CScript.maxScriptSize then .error (.error .scriptSize) sigChecks
  else match env.evalLoop script.length script (Machine.start stack script sigChecks) with
  | .error halt m => .error halt.caught m.sigChecks
  | .ok _ m =>
    if m.vfExec.isEmpty then .ok m.stack m.sigChecks else .error (.error .unbalancedConditional) m.sigChecks

end BitcoinGpuMiner
