import BitcoinGpuMiner.Encoding.Serialize

/-! # Scripts as byte strings -/

namespace BitcoinGpuMiner

set_option autoImplicit false

abbrev CScript := Bytes

namespace CScript

def maxPubkeysPerMultisig : UInt32 := 20

/-- `CScript::operator<<` on a byte vector. -/
def pushBytes (script : CScript) (data : Bytes) : CScript :=
  let size := data.length
  let head : Bytes :=
    if size < 0x4c then [UInt8.ofNat size]
    else if size ≤ 0xff then [0x4c, UInt8.ofNat size]
    else if size ≤ 0xffff then 0x4d :: writeLE 2 size
    else 0x4e :: writeLE 4 size
  script ++ head ++ data

/-- Base-256 digits of the absolute value, which is below `2 ^ 64`. -/
def magnitude : Nat → Nat → Bytes
  | 0, _ => []
  | fuel + 1, n => if n = 0 then [] else UInt8.ofNat n :: magnitude fuel (n / 256)

/-- `CScriptNum::serialize`. -/
def serializeNum (value : Int) : Bytes :=
  if value = 0 then []
  else
    let result := magnitude 8 value.natAbs
    match result.getLast? with
    | none => []
    | some top =>
      if top &&& 0x80 ≠ 0 then result ++ [if value < 0 then 0x80 else 0]
      else if value < 0 then result.dropLast ++ [top ||| 0x80]
      else result

def pushInt64 (script : CScript) (n : Int) : CScript :=
  if n = -1 ∨ (1 ≤ n ∧ n ≤ 16) then script ++ [UInt8.ofNat (n + 0x50).toNat]
  else if n = 0 then script ++ [0x00]
  else pushBytes script (serializeNum n)

end CScript

end BitcoinGpuMiner
