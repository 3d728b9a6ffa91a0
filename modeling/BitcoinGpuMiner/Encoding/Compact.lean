import BitcoinGpuMiner.Encoding.Uint256

/-! # Compact targets of `arith_uint256` -/

namespace BitcoinGpuMiner

set_option autoImplicit false

structure CompactTarget where
  target : Nat
  negative : Bool
  overflow : Bool

/-- `arith_uint256::SetCompact` with its two flags. -/
def setCompact (nCompact : UInt32) : CompactTarget :=
  let nSize := nCompact.toNat >>> 24
  let word := nCompact.toNat &&& 0x007fffff
  let nWord := if nSize ≤ 3 then word >>> (8 * (3 - nSize)) else word
  { target := if nSize ≤ 3 then nWord else (nWord <<< (8 * (nSize - 3))) % 2 ^ 256
    negative := nWord ≠ 0 ∧ nCompact.toNat &&& 0x00800000 ≠ 0
    overflow := nWord ≠ 0 ∧ (nSize > 34 ∨ (nWord > 0xff ∧ nSize > 33) ∨ (nWord > 0xffff ∧ nSize > 32)) }

/-- `base_uint::bits`: the position of the highest set bit, counted from one. -/
def bitLength (n : Nat) : Nat := if n = 0 then 0 else Nat.log2 n + 1

/-- `arith_uint256::GetCompact(false)`. -/
def getCompact (n : Nat) : UInt32 :=
  let nSize := (bitLength n + 7) / 8
  let nCompact := if nSize ≤ 3 then (n % 2 ^ 64) <<< (8 * (3 - nSize)) else (n >>> (8 * (nSize - 3))) % 2 ^ 64
  if nCompact &&& 0x00800000 ≠ 0 then UInt32.ofNat ((nCompact >>> 8) ||| ((nSize + 1) <<< 24))
  else UInt32.ofNat (nCompact ||| (nSize <<< 24))

end BitcoinGpuMiner
