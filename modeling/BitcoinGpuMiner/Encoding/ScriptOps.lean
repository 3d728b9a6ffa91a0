import BitcoinGpuMiner.Encoding.Script

/-! # Reading scripts operation by operation

`GetOp` with its operand, the shapes of scripts that the verifier knows, the signature-operation counts and
`FindAndDelete`.
-/

namespace BitcoinGpuMiner

set_option autoImplicit false

namespace CScript

def maxScriptElementSize : Nat := 520

def maxOpsPerScript : Nat := 201

def maxScriptSize : Nat := 10000

def maxStackSize : Nat := 1000

/-! The opcodes that other code than the interpreter's `switch` names. -/

def OP_0 : UInt8 := 0x00
def OP_PUSHDATA1 : UInt8 := 0x4c
def OP_PUSHDATA2 : UInt8 := 0x4d
def OP_PUSHDATA4 : UInt8 := 0x4e
def OP_1 : UInt8 := 0x51
def OP_16 : UInt8 := 0x60
def OP_IF : UInt8 := 0x63
def OP_ENDIF : UInt8 := 0x68
def OP_RETURN : UInt8 := 0x6a
def OP_DUP : UInt8 := 0x76
def OP_EQUAL : UInt8 := 0x87
def OP_EQUALVERIFY : UInt8 := 0x88
def OP_HASH160 : UInt8 := 0xa9
def OP_CODESEPARATOR : UInt8 := 0xab
def OP_CHECKSIG : UInt8 := 0xac
def OP_CHECKSIGVERIFY : UInt8 := 0xad
def OP_CHECKMULTISIG : UInt8 := 0xae
def OP_CHECKMULTISIGVERIFY : UInt8 := 0xaf
def OP_INVALIDOPCODE : UInt8 := 0xff

/-- `GetOp`: the opcode, its operand and what follows; a failed read leaves the iterator inside the operation. -/
def getOp : CScript → Except CScript (UInt8 × Bytes × CScript)
  | [] => .error []
  | opcode :: pc =>
    if opcode < OP_PUSHDATA1 then operand opcode opcode.toNat pc
    else if opcode = OP_PUSHDATA1 then
      if pc.length < 1 then .error pc else operand opcode (readLE (pc.take 1)) (pc.drop 1)
    else if opcode = OP_PUSHDATA2 then
      if pc.length < 2 then .error pc else operand opcode (readLE (pc.take 2)) (pc.drop 2)
    else if opcode = OP_PUSHDATA4 then
      if pc.length < 4 then .error pc else operand opcode (readLE (pc.take 4)) (pc.drop 4)
    else .ok (opcode, [], pc)
where
  operand (opcode : UInt8) (nSize : Nat) (pc : CScript) : Except CScript (UInt8 × Bytes × CScript) :=
    if pc.length < nSize then .error pc else .ok (opcode, pc.take nSize, pc.drop nSize)

/-- `DecodeOP_N`; the assertion is that of the source. -/
def decodeOpN (opcode : UInt8) : Option Nat :=
  if opcode = OP_0 then some 0
  else if OP_1 ≤ opcode ∧ opcode ≤ OP_16 then some (opcode.toNat - 0x50)
  else none

/-- The loop of `GetSigOpCount(fAccurate)`. -/
def sigOpCountLoop (fAccurate : Bool) : Nat → CScript → UInt8 → UInt32 → UInt32
  | 0, _, _, n => n
  | fuel + 1, pc, lastOpcode, n =>
    match getOp pc with
    | .error _ => n
    | .ok (opcode, _, rest) =>
      if opcode = OP_CHECKSIG ∨ opcode = OP_CHECKSIGVERIFY then sigOpCountLoop fAccurate fuel rest opcode (n + 1)
      else if opcode = OP_CHECKMULTISIG ∨ opcode = OP_CHECKMULTISIGVERIFY then
        if fAccurate ∧ OP_1 ≤ lastOpcode ∧ lastOpcode ≤ OP_16 then
          sigOpCountLoop fAccurate fuel rest opcode (n + UInt32.ofNat (lastOpcode.toNat - 0x50))
        else sigOpCountLoop fAccurate fuel rest opcode (n + maxPubkeysPerMultisig)
      else sigOpCountLoop fAccurate fuel rest opcode n

def getSigOpCountWith (fAccurate : Bool) (script : CScript) : UInt32 :=
  sigOpCountLoop fAccurate script.length script OP_INVALIDOPCODE 0

/-- `GetSigOpCount(false)`. -/
def getSigOpCount (script : CScript) : UInt32 := getSigOpCountWith false script

def isPayToScriptHash (script : CScript) : Bool :=
  script.length == 23 && script[0]? == some OP_HASH160 && script[1]? == some 0x14 && script[22]? == some OP_EQUAL

/-- `IsWitnessProgram`: version and program. -/
def isWitnessProgram (script : CScript) : Option (Nat × Bytes) :=
  if script.length < 4 ∨ script.length > 42 then none
  else match script with
  | op0 :: op1 :: program =>
    if op0 ≠ OP_0 ∧ (op0 < OP_1 ∨ op0 > OP_16) then none
    else if op1.toNat + 2 = script.length then (decodeOpN op0).map fun version => (version, program)
    else none
  | _ => none

def pushOnlyLoop : Nat → CScript → Bool
  | 0, _ => true
  | fuel + 1, pc =>
    if pc.isEmpty then true
    else match getOp pc with
    | .error _ => false
    | .ok (opcode, _, rest) => if opcode > OP_16 then false else pushOnlyLoop fuel rest

def isPushOnly (script : CScript) : Bool := pushOnlyLoop script.length script

/-- The items a scriptSig of pushes names; the last one is what `GetSigOpCount(scriptSig)` looks into. -/
def lastPush : Nat → CScript → Bytes → Option Bytes
  | 0, _, vData => some vData
  | fuel + 1, pc, vData =>
    if pc.isEmpty then some vData
    else match getOp pc with
    | .error _ => none
    | .ok (opcode, data, rest) => if opcode > OP_16 then none else lastPush fuel rest data

/-- `GetSigOpCount(const CScript& scriptSig)`. -/
def getSigOpCountP2SH (scriptPubKey scriptSig : CScript) : UInt32 :=
  if !isPayToScriptHash scriptPubKey then getSigOpCountWith true scriptPubKey
  else match lastPush scriptSig.length scriptSig [] with
  | none => 0
  | some subscript => getSigOpCountWith true subscript

def isUnspendable (script : CScript) : Bool :=
  script.head? == some OP_RETURN || script.length > maxScriptSize

/-- The inner loop of `FindAndDelete`: copies of `b` that stand one behind the other. -/
def skipCopies (b : CScript) : Nat → CScript → Nat → CScript × Nat
  | 0, pc, nFound => (pc, nFound)
  | fuel + 1, pc, nFound =>
    if pc.length ≥ b.length ∧ pc.take b.length = b then skipCopies b fuel (pc.drop b.length) (nFound + 1)
    else (pc, nFound)

/-- The outer loop: `pc2` is where the bytes not yet copied begin. -/
def findAndDeleteLoop (b : CScript) : Nat → CScript → CScript → CScript → Nat → CScript × CScript × Nat
  | 0, result, pc2, _, nFound => (result, pc2, nFound)
  | fuel + 1, result, pc2, pc, nFound =>
    let result := result ++ pc2.take (pc2.length - pc.length)
    let (pc, nFound) := skipCopies b pc.length pc nFound
    match getOp pc with
    | .error _ => (result, pc, nFound)
    | .ok (_, _, rest) => findAndDeleteLoop b fuel result pc rest nFound

def findAndDelete (script b : CScript) : CScript × Nat :=
  if b.isEmpty then (script, 0)
  else
    let (result, pc2, nFound) := findAndDeleteLoop b (script.length + 1) [] script script 0
    if nFound > 0 then (result ++ pc2, nFound) else (script, nFound)

end CScript

end BitcoinGpuMiner
