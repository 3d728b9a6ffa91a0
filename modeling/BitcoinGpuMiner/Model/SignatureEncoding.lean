import BitcoinGpuMiner.Encoding.Script

/-! # Encodings of signatures and public keys

The strict test of the interpreter and the lax parser in front of the curve library. Every read of a byte is checked:
one behind the end is a stop of its own, and so is a difference of positions that would wrap.
-/

namespace BitcoinGpuMiner

set_option autoImplicit false

/-- How reading an encoding ends early: it is refused, or it leaves its buffer. -/
inductive ReadStop where
  | refused
  | outOfBounds
deriving DecidableEq

abbrev Reading := Except ReadStop

namespace Reading

def byte (input : Bytes) (pos : Nat) : Reading UInt8 :=
  match input[pos]? with
  | some b => .ok b
  | none => .error .outOfBounds

def refuseIf (c : Prop) [Decidable c] : Reading Unit := if c then .error .refused else .ok ()

/-- `inputlen - pos` on unsigned numbers. -/
def left (input : Bytes) (pos : Nat) : Reading Nat :=
  if pos ≤ input.length then .ok (input.length - pos) else .error .outOfBounds

end Reading

open Reading

/-- The four tests made of each of the two integers, whose tag is at `pos`: its type, some bytes, no sign, and no
zero in front that is not there for the sign. -/
def testInteger (sig : Bytes) (pos len : Nat) : Reading Unit := do
  let tag ← byte sig pos
  refuseIf (tag ≠ 0x02)
  refuseIf (len = 0)
  let first ← byte sig (pos + 2)
  refuseIf (first &&& 0x80 ≠ 0)
  if len > 1 ∧ first = 0 then do
    let second ← byte sig (pos + 3)
    refuseIf (second &&& 0x80 = 0)
  else pure ()

/-- `IsValidSignatureEncoding`, with its tests in the order of the source. -/
def isValidSignatureEncoding (sig : Bytes) : Reading Unit := do
  refuseIf (sig.length < 9)
  refuseIf (sig.length > 73)
  let compound ← byte sig 0
  refuseIf (compound ≠ 0x30)
  let total ← byte sig 1
  refuseIf (total.toNat ≠ sig.length - 3)
  let lenR ← byte sig 3
  refuseIf (5 + lenR.toNat ≥ sig.length)
  let lenS ← byte sig (5 + lenR.toNat)
  refuseIf (lenR.toNat + lenS.toNat + 7 ≠ sig.length)
  testInteger sig 2 lenR.toNat
  testInteger sig (lenR.toNat + 4) lenS.toNat

/-- `IsDefinedHashtypeSignature`. -/
def isDefinedHashtypeSignature (vchSig : Bytes) : Bool :=
  match vchSig.getLast? with
  | none => false
  | some back =>
    let nHashType := back &&& ~~~ 0x80
    ! (nHashType < 1 || nHashType > 3)

def isCompressedOrUncompressedPubKey (vchPubKey : Bytes) : Bool :=
  if vchPubKey.length < 33 then false
  else match vchPubKey.head? with
  | some 0x04 => vchPubKey.length == 65
  | some 0x02 => vchPubKey.length == 33
  | some 0x03 => vchPubKey.length == 33
  | _ => false

def isCompressedPubKey (vchPubKey : Bytes) : Bool :=
  vchPubKey.length == 33 && (vchPubKey.head? == some 0x02 || vchPubKey.head? == some 0x03)

namespace DerLax

/-- `while (len > 0 && input[pos] == 0) { pos++; len--; }` -/
def skipZeros (input : Bytes) : Nat → Nat → Reading (Nat × Nat)
  | 0, pos => .ok (0, pos)
  | len + 1, pos => do
    let b ← byte input pos
    if b = 0 then skipZeros input len (pos + 1) else .ok (len + 1, pos)

/-- The big-endian length that follows a first length byte above `0x80`. -/
def readLength (input : Bytes) : Nat → Nat → Nat → Reading (Nat × Nat)
  | 0, pos, len => .ok (len, pos)
  | lenbyte + 1, pos, len => do
    let b ← byte input pos
    readLength input lenbyte (pos + 1) (len * 256 + b.toNat)

/-- The length of an integer, in the short or in the long form, and where its bytes begin. -/
def integerLength (input : Bytes) (lenbyte : UInt8) (pos : Nat) : Reading (Nat × Nat) :=
  if lenbyte &&& 0x80 ≠ 0 then do
    let lenbyte := lenbyte.toNat - 0x80
    refuseIf (lenbyte > (← left input pos))
    let (lenbyte, pos) ← skipZeros input lenbyte pos
    refuseIf (lenbyte ≥ 4)
    readLength input lenbyte pos 0
  else pure (lenbyte.toNat, pos)

/-- Tag and length of an integer; where its bytes are, and the position behind them. -/
def integer (input : Bytes) (pos : Nat) : Reading (Nat × Nat × Nat) := do
  refuseIf (pos = input.length)
  let tag ← byte input pos
  refuseIf (tag ≠ 0x02)
  let pos := pos + 1
  refuseIf (pos = input.length)
  let lenbyte ← byte input pos
  let (len, pos) ← integerLength input lenbyte (pos + 1)
  refuseIf (len > (← left input pos))
  pure (pos, len, pos + len)

/-- The value of an integer without its leading zeros, if that has at most 32 bytes. -/
def value (input : Bytes) (pos len : Nat) : Reading (Option Nat) := do
  let (len, pos) ← skipZeros input len pos
  if len > 32 then pure none
  else if pos + len ≤ input.length then pure (some (readBE ((input.drop pos).take len)))
  else .error .outOfBounds

/-- The length of the sequence, which is skipped and not used. -/
def sequenceLength (input : Bytes) (lenbyte : UInt8) (pos : Nat) : Reading Nat :=
  if lenbyte &&& 0x80 ≠ 0 then do
    let lenbyte := lenbyte.toNat - 0x80
    refuseIf (lenbyte > (← left input pos))
    pure (pos + lenbyte)
  else pure pos

end DerLax

/-- The order of the curve's group. -/
def curveOrder : Nat := 0xFFFFFFFFFFFFFFFFFFFFFFFFFFFFFFFEBAAEDCE6AF48A03BBFD25E8CD0364141

/-- What is handed on of the two numbers; `none` stands for more than 32 bytes. -/
def DerLax.ofNumbers : Option Nat → Option Nat → Nat × Nat
  | some r, some s => if r < curveOrder ∧ s < curveOrder then (r, s) else (0, 0)
  | _, _ => (0, 0)

/-- `ecdsa_signature_parse_der_lax`: the two numbers, or zeros where one of them is too large. -/
def parseDerLax (input : Bytes) : Reading (Nat × Nat) := do
  refuseIf (input.length = 0)
  let tag ← byte input 0
  refuseIf (tag ≠ 0x30)
  refuseIf (1 = input.length)
  let lenbyte ← byte input 1
  let pos ← DerLax.sequenceLength input lenbyte 2
  let (rpos, rlen, pos) ← DerLax.integer input pos
  let (spos, slen, _) ← DerLax.integer input pos
  let r ← DerLax.value input rpos rlen
  let s ← DerLax.value input spos slen
  pure (DerLax.ofNumbers r s)

namespace CPubKey

def getLen (chHeader : UInt8) : Nat :=
  if chHeader = 2 ∨ chHeader = 3 then 33 else if chHeader = 4 ∨ chHeader = 6 ∨ chHeader = 7 then 65 else 0

/-- `IsValid` of the key made from a byte vector. -/
def isValid : Bytes → Bool
  | [] => false
  | header :: rest => getLen header != 0 && getLen header == rest.length + 1

/-- `CheckLowS`. -/
def checkLowS (vchSig : Bytes) : Reading Bool :=
  match parseDerLax vchSig with
  | .ok (_, s) => .ok (s ≤ curveOrder / 2)
  | .error .refused => .ok false
  | .error .outOfBounds => .error .outOfBounds

end CPubKey

/-- The curve library: parsing a public key and verifying a pair of numbers against a key and a hash. -/
structure Secp256k1 where
  pubkeyParse : Bytes → Bool
  ecdsaVerify : Bytes → Nat → Nat → Uint256 → Bool

/-- `CPubKey::Verify`; the library wants the smaller of the two signatures with the same `r`. -/
def CPubKey.verify (curve : Secp256k1) (vch : Bytes) (hash : Uint256) (vchSig : Bytes) : Reading Bool :=
  if !isValid vch then .ok false
  else if !curve.pubkeyParse vch then .ok false
  else match parseDerLax vchSig with
  | .ok (r, s) => .ok (curve.ecdsaVerify vch r (if s > curveOrder / 2 then curveOrder - s else s) hash)
  | .error .refused => .ok false
  | .error .outOfBounds => .error .outOfBounds

end BitcoinGpuMiner
