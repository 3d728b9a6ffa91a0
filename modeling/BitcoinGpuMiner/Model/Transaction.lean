import BitcoinGpuMiner.Encoding.Sha256
import BitcoinGpuMiner.Encoding.ScriptOps

/-! # Transactions

An `OutPoint` here is the pair the source compares and orders by; what the UTXO
database stores under such a key is the separate record `UtxoEntry`.
-/

namespace BitcoinGpuMiner

set_option autoImplicit false

/-- Amounts (`CAmount`) are signed 64-bit integers; this reduces a sum that may leave the range. -/
def toInt64 (n : Int) : Int := Int.bmod n (2 ^ 64)

/-- A number as an `int`. -/
def toInt32 (n : Int) : Int := Int.bmod n (2 ^ 32)

def coin : Int := 100000000

def maxMoney : Int := 21000000 * coin

def moneyRange (nValue : Int) : Bool := 0 ≤ nValue ∧ nValue ≤ maxMoney

theorem moneyRange_iff (nValue : Int) : moneyRange nValue = true ↔ 0 ≤ nValue ∧ nValue ≤ maxMoney := by
  rw [moneyRange, decide_eq_true_iff]

structure OutPoint where
  hashTransaction : Uint256
  outPutIdx : UInt32
deriving DecidableEq

namespace OutPoint

def nullIndex : UInt32 := 0xffffffff

def null : OutPoint := ⟨Uint256.null, nullIndex⟩

def isNull (pt : OutPoint) : Bool := pt.hashTransaction.isNull && pt.outPutIdx == nullIndex

theorem isNull_iff (pt : OutPoint) : pt.isNull = true ↔ pt = null := by
  cases pt
  simp [isNull, null, Uint256.isNull_iff]

/-- `operator<`: by transaction hash, then by output index. -/
instance : Ord OutPoint where
  compare := compareLex (compareOn hashTransaction) (compareOn outPutIdx)

instance : Std.TransOrd OutPoint :=
  inferInstanceAs (Std.TransCmp (compareLex (compareOn hashTransaction) (compareOn outPutIdx)))

instance : Std.LawfulEqOrd OutPoint where
  eq_of_compare {a b} h := by
    obtain ⟨hHash, hIdx⟩ := Ordering.then_eq_eq.mp h
    cases a
    cases b
    cases Std.LawfulEqOrd.eq_of_compare hHash
    cases Std.LawfulEqOrd.eq_of_compare hIdx
    rfl

end OutPoint

structure TxIn where
  previousOutput : OutPoint
  scriptSig : CScript
  sequence : UInt32
  scriptWitness : List Bytes
deriving DecidableEq

structure TxOut where
  nValue : Int
  scriptPubKey : CScript
deriving DecidableEq

structure NetMessageTransaction where
  vin : List TxIn
  vout : List TxOut
  nVersion : Int
  nLockTime : UInt32
deriving DecidableEq

def OutPoint.serialize (pt : OutPoint) : Bytes :=
  pt.hashTransaction.bytes ++ writeLE 4 pt.outPutIdx.toNat

def TxIn.serialize (txIn : TxIn) : Bytes :=
  txIn.previousOutput.serialize ++ writeBytes txIn.scriptSig ++ writeLE 4 txIn.sequence.toNat

def TxOut.serialize (txOut : TxOut) : Bytes :=
  writeInt 8 txOut.nValue ++ writeBytes txOut.scriptPubKey

theorem TxIn.length_scriptSig_le (txIn : TxIn) : txIn.scriptSig.length ≤ txIn.serialize.length := by
  rw [serialize, List.length_append, List.length_append, length_writeBytes]
  omega

theorem TxOut.length_scriptPubKey_le (txOut : TxOut) : txOut.scriptPubKey.length ≤ txOut.serialize.length := by
  rw [serialize, List.length_append, length_writeBytes]
  omega

namespace NetMessageTransaction

def hasWitness (tx : NetMessageTransaction) : Bool := tx.vin.any fun txIn => !txIn.scriptWitness.isEmpty

def isCoinBase (tx : NetMessageTransaction) : Bool :=
  match tx.vin with
  | [txIn] => txIn.previousOutput.isNull
  | _ => false

/-- `allowWitness` is false when the stream's version has `SERIALIZE_TRANSACTION_NO_WITNESS`. -/
def serialize (allowWitness : Bool) (tx : NetMessageTransaction) : Bytes :=
  let extended := tx.hasWitness && allowWitness
  writeInt 4 tx.nVersion ++
  (if extended then [0, 1] else []) ++
  writeVector TxIn.serialize tx.vin ++
  writeVector TxOut.serialize tx.vout ++
  (if extended then tx.vin.flatMap fun txIn => writeVector writeBytes txIn.scriptWitness else []) ++
  writeLE 4 tx.nLockTime.toNat

/-- `GetSerializeSize(tx, …)`: the flag lands in the type argument, so the version is zero
and witnesses are always counted. -/
def getSerializeSize (tx : NetMessageTransaction) : Nat := (tx.serialize true).length

def getHash (tx : NetMessageTransaction) : Uint256 := Sha256.doubleHash256 (tx.serialize false)

def getWitnessHash (tx : NetMessageTransaction) : Uint256 :=
  if tx.hasWitness then Sha256.doubleHash256 (tx.serialize true) else tx.getHash

/-- The running sum of `GetValueOut`, which gives `-1` once a value leaves the money range. -/
def sumValueOut : List TxOut → Int → Int
  | [], nValueOut => nValueOut
  | txOut :: rest, nValueOut =>
    let total := toInt64 (nValueOut + txOut.nValue)
    if !moneyRange txOut.nValue || !moneyRange total then -1 else sumValueOut rest total

def getValueOut (tx : NetMessageTransaction) : Int := sumValueOut tx.vout 0

def getLegacySigOpCount (tx : NetMessageTransaction) : UInt32 :=
  tx.vout.foldl (fun n txOut => n + txOut.scriptPubKey.getSigOpCount)
    (tx.vin.foldl (fun n txIn => n + txIn.scriptSig.getSigOpCount) 0)

theorem isCoinBase_iff (tx : NetMessageTransaction) :
    tx.isCoinBase = true ↔ ∃ txIn, tx.vin = [txIn] ∧ txIn.previousOutput = OutPoint.null := by
  unfold isCoinBase
  split
  case h_1 txIn hVin =>
    rw [OutPoint.isNull_iff]
    constructor
    · exact fun h => ⟨txIn, hVin, h⟩
    · rintro ⟨txIn', hVin', h⟩
      cases List.singleton_inj.mp (hVin.symm.trans hVin')
      exact h
  case h_2 hVin =>
    constructor
    · intro h
      cases h
    · rintro ⟨txIn, h, -⟩
      exact absurd h (hVin txIn)

end NetMessageTransaction

end BitcoinGpuMiner
